/-
Paths lead back.

A walk writes the path of an element from the path of the element above it: a slash, the
tag, and in brackets which of the children with that tag it is. Read from the root, such
a path leads to the element again, as long as no tag holds a slash or an opening
bracket. It also tells the elements of a walk apart: siblings by the last step, cousins
by the steps before it, and elements of different levels by the number of slashes, which
is the depth.
-/
import TreeGrammar.Proofs.Schema.RoundTrip
import TreeGrammar.Proofs.Validation.Walk
import Mathlib.Data.List.Permutation

set_option autoImplicit false

namespace TreeGrammar

/-! ## Reading a path -/

/-- A **step** of a path: the tag, and in brackets which of the children with that tag,
the first being one. -/
def writeStep (tag : String) (place : Nat) : List Char :=
  tag.toList ++ '[' :: ((toString place).toList ++ [']'])

/-- What a step says, if it is one. -/
def readStep? (step : List Char) : Option (String × Nat) :=
  match step.splitOn '[' with
  | [tag, place] =>
      if place.getLast? = some ']' then (numberOf? 10 place.dropLast).map
        fun n => (String.ofList tag, n) else none
  | _ => none

namespace Element

/-- The child element with a tag that has the given place among those with that tag, the
first being one. -/
def nthChild? (e : Element) (tag : String) : Nat → Option Element
  | 0 => none
  | n + 1 => (e.childElements.filter fun c => c.tag = tag)[n]?

/-- The child element to which a step leads. -/
def step? (e : Element) (step : List Char) : Option Element :=
  (readStep? step).bind fun (tag, n) => e.nthChild? tag n

/-- The element **at a path**: the root by its tag, and from there step by step. -/
def at? (root : Element) (path : String) : Option Element :=
  match path.toList.splitOn '/' with
  | [] :: tag :: steps => if String.ofList tag = root.tag then steps.foldlM step? root else none
  | _ => none

end Element

/-- A step is **read back**, if its tag has no opening bracket. The place is written as
a decimal in brackets. -/
theorem readStep?_writeStep {tag : String} (htag : '[' ∉ tag.toList) (n : Nat) :
    readStep? (writeStep tag n) = some (tag, n) := by
  have hplace : '[' ∉ (toString n).toList ++ [']'] := by
    rw [List.mem_append, not_or]
    exact ⟨notMem_toList_toString rfl n, by decide⟩
  have hsplit : (writeStep tag n).splitOn '[' = [tag.toList, (toString n).toList ++ [']']] := by
    rw [writeStep, List.splitOn_append_cons_self, List.splitOn_eq_singleton htag,
      List.splitOn_eq_singleton hplace]
    rfl
  unfold readStep?
  rw [hsplit]
  dsimp only
  rw [List.getLast?_concat, if_pos rfl, List.dropLast_concat, toList_toString, numberOf?_toDigits,
    Option.map_some, String.ofList_toList]

theorem slash_notMem_writeStep {tag : String} (htag : '/' ∉ tag.toList) (n : Nat) :
    '/' ∉ writeStep tag n := by
  unfold writeStep
  rw [List.mem_append, List.mem_cons, List.mem_append, not_or, not_or, not_or]
  exact ⟨htag, by decide, notMem_toList_toString rfl n, by decide⟩

/-- A last step without slashes can be **told from** what stands before it. Both are
split at their slashes, and the last part is the step. -/
theorem append_slash_inj {p q step step' : List Char} (hstep : '/' ∉ step) (hstep' : '/' ∉ step')
    (h : p ++ '/' :: step = q ++ '/' :: step') : p = q ∧ step = step' := by
  have hsplit := congrArg (List.splitOn '/') h
  rw [List.splitOn_append_cons_self, List.splitOn_append_cons_self, List.splitOn_eq_singleton hstep,
    List.splitOn_eq_singleton hstep'] at hsplit
  obtain ⟨hpq, hlast⟩ := List.append_inj' hsplit rfl
  refine ⟨?_, List.singleton_inj.mp hlast⟩
  calc p = ['/'].intercalate (p.splitOn '/') := (List.intercalate_splitOn '/').symm
    _ = ['/'].intercalate (q.splitOn '/') := by rw [hpq]
    _ = q := List.intercalate_splitOn '/'

namespace Element

variable {root e : Element} {path longer : String} {step : List Char}

/-- A longer path is read **one step on**. Paths are read from the root on. -/
theorem at?_of_step (h : root.at? path = some e) (hstep : '/' ∉ step)
    (hlonger : longer.toList = path.toList ++ '/' :: step) : root.at? longer = e.step? step := by
  have hsplit : longer.toList.splitOn '/' = path.toList.splitOn '/' ++ [step] := by
    rw [hlonger, List.splitOn_append_cons_self, List.splitOn_eq_singleton hstep]
  unfold at? at h ⊢
  rw [hsplit]
  match hpath : path.toList.splitOn '/', h with
  | [] :: tag :: steps, h =>
      dsimp only [List.cons_append] at h ⊢
      split at h
      · next htag =>
          rw [if_pos htag, List.foldlM_append, h]
          simp only [List.foldlM_cons, List.foldlM_nil, Option.bind_eq_bind, Option.bind_some,
            Option.pure_def, Option.bind_fun_some]
      · cases h

/-- The path of the root is **the root's**. -/
theorem at?_root (htag : '/' ∉ root.tag.toList) : root.at? ("/" ++ root.tag) = some root := by
  have hsplit : ("/" ++ root.tag).toList.splitOn '/' = [[], root.tag.toList] := by
    rw [String.toList_append]
    show ([] ++ '/' :: root.tag.toList).splitOn '/' = _
    rw [List.splitOn_append_cons_self, List.splitOn_eq_singleton htag]
    rfl
  unfold at?
  rw [hsplit]
  dsimp only
  rw [if_pos (String.ofList_toList)]
  rfl

/-- No tag in the tree holds **a slash or an opening bracket**. -/
def PlainTags (root : Element) : Prop := ∀ depth e, root.Has depth e → '/' ∉ e.tag.toList ∧
    '[' ∉ e.tag.toList

end Element

/-! ## The paths of visits -/

namespace Visit

variable {path : String} {depth : Nat} {before : List String} {ns : List Node}
  {v w : Visit} {root : Element}

/-- The path of a child is that of its parent, a slash, and the step to it. -/
theorem toList_path_below (path tag : String) (n : Nat) :
    s!"{path}/{tag}[{n}]".toList = path.toList ++ '/' :: writeStep tag n := by
  show (path ++ "/" ++ tag ++ "[" ++ toString n ++ "]").toList = _
  simp only [String.toList_append, List.append_assoc]
  rfl

/-- The path of a visit below is one step longer, and **the step leads to** its
element. Elements before it with its tag are counted, whether among the children or
before them. -/
theorem exists_step_of_mem_below (h : w ∈ below path depth before ns) :
    ∃ n, before.count w.element.tag ≤ n ∧ w.path.toList = path.toList ++ '/' ::
      writeStep w.element.tag (n + 1) ∧
      ((ns.filterMap Node.element?).filter fun c => c.tag = w.element.tag)[n -
        before.count w.element.tag]? = some w.element := by
  induction ns generalizing before with
  | nil => cases h
  | cons n rest ih =>
      cases n with
      | text s => exact ih h
      | comment s => exact ih h
      | element tag attributes children =>
          rcases List.mem_cons.mp h with rfl | h
          · refine ⟨before.count tag, Nat.le_refl _, ?_, ?_⟩
            · exact toList_path_below path tag _
            · simp [Node.element?]
          · obtain ⟨n, hle, hpath, hplace⟩ := ih h
            -- an element with the same tag moves the place by one, any other leaves it
            by_cases htag : tag = w.element.tag
            · rw [htag, List.count_cons_self] at hle hplace
              refine ⟨n, by omega, hpath, ?_⟩
              obtain ⟨k, rfl⟩ := Nat.exists_eq_add_of_le hle
              have hk :
                  before.count w.element.tag + 1 + k - (before.count w.element.tag + 1) = k := by
                    omega
              have hk' : before.count w.element.tag + 1 + k - before.count w.element.tag =
                  k + 1 := by omega
              rw [hk] at hplace
              rw [hk']
              simpa [Node.element?, htag] using hplace
            · rw [List.count_cons_of_ne htag] at hle hplace
              refine ⟨n, hle, hpath, ?_⟩
              simpa [Node.element?, htag] using hplace

/-- The path of a child is one step longer, and **the step leads to** it. The step is
the tag and the place among the siblings of that tag. -/
theorem exists_step_of_mem_children (h : w ∈ v.children) :
    ∃ n, w.path.toList = v.path.toList ++ '/' :: writeStep w.element.tag n ∧
      v.element.nthChild? w.element.tag n = some w.element := by
  obtain ⟨n, -, hpath, hplace⟩ := exists_step_of_mem_below h
  exact ⟨n + 1, hpath, hplace⟩

/-- Siblings have **different paths**: of two with one tag, the later one has a greater
place. By induction on the nodes, with the tags of those that came before. -/
theorem nodup_path_below (hplain : ∀ e ∈ ns.filterMap Node.element?, '[' ∉ e.tag.toList) :
    ((below path depth before ns).map Visit.path).Nodup := by
  induction ns generalizing before with
  | nil => exact .nil
  | cons n rest ih =>
      cases n with
      | text s => exact ih hplain
      | comment s => exact ih hplain
      | element tag attributes children =>
          have hrest : ∀ e ∈ rest.filterMap Node.element?, '[' ∉ e.tag.toList := fun e he =>
            hplain e (List.mem_cons_of_mem _ he)
          refine List.nodup_cons.mpr ⟨fun hmem => ?_, ih hrest⟩
          obtain ⟨w, hw, hsame⟩ := List.mem_map.mp hmem
          obtain ⟨n, hle, hpath, -⟩ := exists_step_of_mem_below hw
          have helement : w.element ∈ rest.filterMap Node.element? := by
            rw [← map_element_below path depth (tag :: before)]
            exact List.mem_map_of_mem hw
          -- one step cannot be read as two places
          rw [hsame, toList_path_below, List.append_cancel_left_eq, List.cons.injEq] at hpath
          have hread := congrArg readStep? hpath.2
          rw [readStep?_writeStep (hplain _ List.mem_cons_self),
            readStep?_writeStep (hrest _ helement), Option.some.injEq, Prod.mk.injEq] at hread
          obtain ⟨htag, hplace⟩ : tag = w.element.tag ∧ before.count tag + 1 = n + 1 := hread
          rw [← htag, List.count_cons_self] at hle
          omega

/-- A visit **in its place** in the tree of a root: its path leads to its element, and
has a slash for each level. -/
structure Placed (root : Element) (v : Visit) : Prop where
  has : root.Has v.depth v.element
  atPath : root.at? v.path = some v.element
  slashes : v.path.toList.count '/' = v.depth

theorem placed_root (hplain : root.PlainTags) : (Visit.root root).Placed root where
  has := .root
  atPath := Element.at?_root (hplain 1 root .root).1
  slashes := by
    show ("/" ++ root.tag).toList.count '/' = 1
    rw [String.toList_append, List.count_append, List.count_eq_zero_of_not_mem
      (hplain 1 root .root).1]
    rfl

/-- Below a visit in its place, **visits are in their places**. Its path is read as the
parent's path and one step more. -/
theorem Placed.child (hplain : root.PlainTags) (hv : v.Placed root) (hw : w ∈ v.children) :
    w.Placed root := by
  have hdepth := depth_of_mem_children hw
  have hhas : root.Has w.depth w.element := by
    rw [hdepth]
    apply hv.has.child trivial
    rw [← map_element_children]
    exact List.mem_map_of_mem hw
  obtain ⟨hslash, hbracket⟩ := hplain _ _ hhas
  obtain ⟨n, hpath, hplace⟩ := exists_step_of_mem_children hw
  have hstep := slash_notMem_writeStep hslash n
  refine ⟨hhas, ?_, ?_⟩
  · rw [Element.at?_of_step hv.atPath hstep hpath, Element.step?, readStep?_writeStep hbracket]
    exact hplace
  · rw [hpath, List.count_append, List.count_cons_self, List.count_eq_zero_of_not_mem hstep,
      hv.slashes, hdepth]

/-- Children of visits with different paths have **different paths**. A child's path
tells the path of its parent. -/
theorem disjoint_path_children (hplain : root.PlainTags) {v' : Visit} (hv : v.Placed root)
    (hv' : v'.Placed root) (hne : v.path ≠ v'.path) : List.Disjoint (v.children.map Visit.path)
    (v'.children.map Visit.path) := by
  intro p hp hp'
  obtain ⟨w, hw, rfl⟩ := List.mem_map.mp hp
  obtain ⟨w', hw', hsame⟩ := List.mem_map.mp hp'
  obtain ⟨n, hpath, -⟩ := exists_step_of_mem_children hw
  obtain ⟨n', hpath', -⟩ := exists_step_of_mem_children hw'
  have hslash {u : Visit} (hu : u.Placed root) (n : Nat) : '/' ∉ writeStep u.element.tag n :=
    slash_notMem_writeStep (hplain _ _ hu.has).1 n
  rw [hsame, hpath] at hpath'
  have hprefix :=
    append_slash_inj (hslash (hv.child hplain hw) n) (hslash (hv'.child hplain hw') n') hpath'
  exact hne (String.toList_inj.mp hprefix.1)

end Visit

/-! ## The paths of a walk -/

namespace Scope

variable {scope : Scope} {root : Element}

theorem le_depth_of_reached {v w : Visit} (h : Relation.ReflTransGen scope.DescendsTo v w) :
    v.depth ≤ w.depth := by
  induction h with
  | refl => exact Nat.le_refl _
  | tail _ hdown ih =>
      rw [Visit.depth_of_mem_children (descendsTo_iff.mp hdown).2]
      omega

/-- Every visit of a walk **is where its path says**: the invariant holds at the root,
and each step keeps it. -/
theorem placed_of_reached (hplain : root.PlainTags) {v w : Visit} (hv : v.Placed root)
    (h : Relation.ReflTransGen scope.DescendsTo v w) : w.Placed root := by
  induction h with
  | refl => exact hv
  | tail _ hdown ih => exact ih.child hplain (descendsTo_iff.mp hdown).2

/-- A **level** of the tree of a root: visits in their places, of one depth and with
different paths. -/
structure Level (root : Element) (depth : Nat) (level : List Visit) : Prop where
  placed : ∀ v ∈ level, v.Placed root
  depth : ∀ v ∈ level, v.depth = depth
  nodup : (level.map Visit.path).Nodup

/-- What is on the next level is a child of something on this one. -/
theorem exists_of_mem_next {level : List Visit} {w : Visit}
    (h : w ∈ (level.map scope.inspect).flatMap Inspection.next) : ∃ v ∈ level, w ∈ v.children := by
  obtain ⟨i, hi, hw⟩ := List.mem_flatMap.mp h
  obtain ⟨v, hv, rfl⟩ := List.mem_map.mp hi
  exact ⟨v, hv, (descendsTo_iff.mp hw).2⟩

theorem level_root (hplain : root.PlainTags) : Level root 1 [Visit.root root] where
  placed := List.forall_mem_singleton.mpr (Visit.placed_root hplain)
  depth := List.forall_mem_singleton.mpr rfl
  nodup := List.nodup_singleton _

section Level

variable {level : List Visit} {depth : Nat}

/-- What comes after a level has **different paths**. Children of one parent differ by
their steps, children of two parents by what stands before. -/
theorem Level.nodup_next (hplain : root.PlainTags) (h : Level root depth level) :
    (((level.map scope.inspect).flatMap Inspection.next).map Visit.path).Nodup := by
  rw [List.flatMap_map, List.map_flatMap, List.nodup_flatMap]
  have hsub (v : Visit) : (scope.inspect v).next ⊆ v.children :=
    fun w hw => (descendsTo_iff.mp hw).2
  constructor
  · intro v hv
    unfold Inspection.next
    split
    · apply Visit.nodup_path_below
      intro e he
      exact (hplain _ _ ((h.placed v hv).has.child trivial he)).2
    · exact .nil
  · have hpairs : level.Pairwise fun v w => v.path ≠ w.path := List.pairwise_map.mp h.nodup
    refine hpairs.imp_of_mem fun {v w} hv hw hne => ?_
    have hdisjoint := Visit.disjoint_path_children hplain (h.placed v hv) (h.placed w hw) hne
    exact List.disjoint_of_subset_left (List.map_subset _ (hsub v))
      (List.disjoint_of_subset_right (List.map_subset _ (hsub w)) hdisjoint)

/-- After a level comes **the level below it**. Every property of a level is thereby
handed down. -/
theorem Level.next (hplain : root.PlainTags) (h : Level root depth level) :
    Level root (depth + 1) ((level.map scope.inspect).flatMap Inspection.next) where
  placed w hw := by
    obtain ⟨v, hv, hchild⟩ := exists_of_mem_next hw
    exact (h.placed v hv).child hplain hchild
  depth w hw := by
    obtain ⟨v, hv, hchild⟩ := exists_of_mem_next hw
    rw [Visit.depth_of_mem_children hchild, h.depth v hv]
  nodup := h.nodup_next hplain

/-- What is visited from a level on is as deep at least, and its path has **as many
slashes**. So visits of different levels have different paths. -/
theorem Level.le_slashes (hplain : root.PlainTags) (h : Level root depth level) {i : Inspection}
    (hi : i ∈ scope.walk level) : depth ≤ i.visit.path.toList.count '/' := by
  obtain ⟨v, hv, w, hreach, rfl⟩ := mem_walk_iff.mp hi
  rw [visit_inspect, (placed_of_reached hplain (h.placed v hv) hreach).slashes, ← h.depth v hv]
  exact le_depth_of_reached hreach

/-- From a level on, a walk gives **different paths** to what it visits. The induction
is on the walk: what comes after a level has more slashes. -/
theorem Level.nodup_walk (hplain : root.PlainTags) (h : Level root depth level) :
    ((scope.walk level).map fun i => i.visit.path).Nodup := by
  fun_induction scope.walk level generalizing depth with
  | case1 => exact .nil
  | case2 v rest found =>
      rename_i ih
      have hbelow : Level root (depth + 1) (found.flatMap Inspection.next) := h.next hplain
      have hpaths : (found.map fun i => i.visit.path) = (v :: rest).map Visit.path := List.map_map
      rw [List.map_append, List.nodup_append', hpaths]
      refine ⟨h.nodup, ih hbelow, fun p hp hp' => ?_⟩
      obtain ⟨u, hu, rfl⟩ := List.mem_map.mp hp
      obtain ⟨i, hi, hsame⟩ := List.mem_map.mp hp'
      have hdeeper := hbelow.le_slashes hplain hi
      rw [hsame, (h.placed u hu).slashes, h.depth u hu] at hdeeper
      omega

end Level

end Scope

/-! ## Whole trees -/

/-- **Paths identify elements.** In a tree whose tags hold neither slashes nor opening
brackets, whatever the schema, the mode and the bounds, a walk adds what it finds at the
elements that it visits; it gives these elements different paths, and each path leads
from the root to its element. Every violation that it adds has a path, and the path
leads to an element with the tag that the violation names. -/
theorem paths_identify (s : Schema) (l : Ledger) (root : Element) (hplain : root.PlainTags) :
    l.walk s root = l.record (l.found s root) ∧
      ((l.found s root).map fun i => i.visit.path).Nodup ∧
      (∀ i ∈ l.found s root, root.at? i.visit.path = some i.visit.element) ∧
      ∀ x ∈ (l.found s root).flatMap Inspection.violations,
        ∃ path e, x.path = some path ∧ root.at? path = some e ∧ x.element = some e.tag := by
  have hat {i : Inspection} (hi : i ∈ l.found s root) :
      root.at? i.visit.path = some i.visit.element := by
    obtain ⟨w, hreach, rfl⟩ := Ledger.exists_reached_of_mem_found hi
    exact (Scope.placed_of_reached hplain (Visit.placed_root hplain) hreach).atPath
  refine ⟨l.walk_eq_record s root, ?_, fun i hi => hat hi, fun x hx => ?_⟩
  -- nothing is visited when the mode is to skip, otherwise the levels of a walk are
  · unfold Ledger.found
    split
    · exact .nil
    · exact (Scope.level_root hplain).nodup_walk hplain
  · obtain ⟨i, hi, hx⟩ := List.mem_flatMap.mp hx
    refine ⟨i.visit.path, i.visit.element, ?_, hat hi, ?_⟩
    all_goals
      obtain ⟨w, -, rfl⟩ := Ledger.exists_reached_of_mem_found hi
      rw [Scope.violations_inspect] at hx
      obtain ⟨y, -, rfl⟩ := List.mem_map.mp hx
      rfl

/-- Two items, one with two notes and one with one. -/
def notedItems : Element where
  tag := "list"
  children :=
    [ .element "item" .empty [.element "note" .empty [], .text "a", .element "note" .empty []],
      .element "item" .empty [.element "note" .empty []] ]

/-- Siblings and cousins are told apart, and the second note of the first item is found
where its path says. -/
theorem paths_identify_notedItems :
    notedItems.PlainTags ∧
      (Ledger.found {} Compact.listingSchema notedItems).map (fun i => i.visit.path) =
        [ "/list", "/list/item[1]", "/list/item[2]", "/list/item[1]/note[1]",
          "/list/item[1]/note[2]", "/list/item[2]/note[1]" ] ∧
      ((Ledger.found {} Compact.listingSchema notedItems).map fun i => i.visit.path).Nodup ∧
      ∃ x ∈ (Ledger.found {} Compact.listingSchema notedItems).flatMap Inspection.violations,
        x.path = some "/list/item[1]/note[2]" ∧
          ∃ e, notedItems.at? "/list/item[1]/note[2]" = some e ∧ x.element = some e.tag := by
  have hnotes : ∀ e ∈ notedItems.childElements, e.tag = "item" ∧ ∀ c ∈ e.childElements, c =
      { tag := "note" } := by
    simp [notedItems, Element.childElements, Node.element?]
  have htree {depth : Nat} {e : Element} (h : notedItems.Has depth e) :
      e = notedItems ∨ e ∈ notedItems.childElements ∨ e = { tag := "note" } := by
    induction h with
    | root => exact .inl rfl
    | child _ _ hc ih =>
        rcases ih with rfl | hitem | rfl
        · exact .inr (.inl hc)
        · exact .inr (.inr ((hnotes _ hitem).2 _ hc))
        · cases hc
  have hplain : notedItems.PlainTags := by
    intro depth e h
    rcases htree h with rfl | hitem | rfl
    · decide
    · rw [(hnotes e hitem).1]
      decide
    · decide
  have hpaths : (Ledger.found {} Compact.listingSchema notedItems).map (fun i => i.visit.path) =
      [ "/list", "/list/item[1]", "/list/item[2]", "/list/item[1]/note[1]", "/list/item[1]/note[2]",
        "/list/item[2]/note[1]" ] := by cbv
  have hviolations :
      ((Ledger.found {} Compact.listingSchema notedItems).flatMap Inspection.violations).map
        Violation.path =
        [ some "/list/item[1]", some "/list/item[1]/note[1]", some "/list/item[1]/note[2]",
          some "/list/item[2]/note[1]" ] := by cbv
  obtain ⟨-, hnodup, -, hat⟩ := paths_identify Compact.listingSchema {} notedItems hplain
  obtain ⟨x, hx, hpath⟩ :
      ∃ x ∈ (Ledger.found {} Compact.listingSchema notedItems).flatMap Inspection.violations,
        x.path = some "/list/item[1]/note[2]" := by
    rw [← List.mem_map, hviolations]
    decide
  obtain ⟨path, e, hsame, hat, helement⟩ := hat x hx
  cases hpath.symm.trans hsame
  exact ⟨hplain, hpaths, hnodup, x, hx, hpath, e, hat, helement⟩

end TreeGrammar
