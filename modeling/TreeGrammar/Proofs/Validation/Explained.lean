/-
Why an element is found to be unknown.

A walk comes to an element below the root from its parent, and it has inspected the
parent before. The parent is declared, or the walk would not have gone on below it. So
if all that contents mention is declared, an unknown child is mentioned nowhere in its
parent's content: the review rejected it, in whatever state it was, and said that it is
not allowed. Each unknown element thus comes with a violation of its parent that names
its index, and that one comes first.
-/
import Mathlib.Data.List.Permutation
import TreeGrammar.Proofs.Analysis.Reachability

set_option autoImplicit false

namespace TreeGrammar

/-! ## Places in a list -/

section Places

variable {α β : Type}

/-- A place in two lists joined is in the first, or **behind all of the first** in
the second. -/
theorem mem_or_exists_of_append_eq {as bs front back : List α} {x : α}
    (h : as ++ bs = front ++ x :: back) : x ∈ as ∨ ∃ front', front = as ++ front' ∧
    bs = front' ++ x :: back := by
  rcases List.append_eq_append_iff.mp h with ⟨front', hfront, hbs⟩ | ⟨middle, has, hmiddle⟩
  · exact .inr ⟨front', hfront, hbs⟩
  · cases middle with
    | nil => exact .inr ⟨[], by rw [has, List.append_nil, List.append_nil], hmiddle.symm⟩
    | cons y rest =>
        cases hmiddle
        exact .inl (has ▸ List.mem_append_right front List.mem_cons_self)

/-- What stands at a place in lists joined was **given by one of them**, and all that
those before it give stands before the place. -/
theorem exists_of_flatMap_eq {f : α → List β} {l : List α} {before after : List β} {x : β}
    (h : l.flatMap f = before ++ x :: after) :
    ∃ front i back, l = front ++ i :: back ∧ x ∈ f i ∧ front.flatMap f ⊆ before := by
  induction l generalizing before with
  | nil => exact absurd h.symm (List.append_ne_nil_of_right_ne_nil _ (List.cons_ne_nil _ _))
  | cons i rest ih =>
      rcases mem_or_exists_of_append_eq
        (List.flatMap_cons.symm.trans h) with hx | ⟨before', rfl, hrest⟩
      · exact ⟨[], i, rest, rfl, hx, List.nil_subset _⟩
      · obtain ⟨front, j, back, rfl, hx, hfront⟩ := ih hrest
        refine ⟨i :: front, j, back, rfl, hx, ?_⟩
        rw [List.flatMap_cons]
        exact List.append_subset.mpr ⟨List.subset_append_left _ _,
          List.Subset.trans hfront (List.subset_append_right _ _)⟩

end Places

/-! ## The place of a child -/

namespace Visit

/-- The visit is of **the node at an index** among the children of another. Its path
counts the elements with its tag up to there. -/
structure IsChildAt (v : Visit) (n : Nat) (w : Visit) : Prop where
  node : v.element.children[n]? = some w.element.node
  depth : w.depth = v.depth + 1
  path : w.path =
      s!"{v.path}/{w.element.tag}[{(((v.element.children.take n).filterMap Node.element?).map
    Element.tag).count w.element.tag + 1}]"

/-- The visits of the elements among nodes are **those at their indexes**. The tags of
elements that stand before the nodes are counted with those among them. -/
theorem exists_index_of_mem_below {path : String} {depth : Nat} {before : List String}
    {ns : List Node} {w : Visit} (h : w ∈ below path depth before ns) :
    ∃ n, ns[n]? = some w.element.node ∧
      w.path = s!"{path}/{w.element.tag}[{before.count w.element.tag
      + (((ns.take n).filterMap Node.element?).map Element.tag).count w.element.tag + 1}]" := by
  induction ns generalizing before with
  | nil => cases h
  | cons first rest ih =>
      cases first with
      | text s =>
          obtain ⟨n, hn, hplace⟩ := ih h
          exact ⟨n + 1, hn, hplace⟩
      | comment s =>
          obtain ⟨n, hn, hplace⟩ := ih h
          exact ⟨n + 1, hn, hplace⟩
      | element tag attributes children =>
          rcases List.mem_cons.mp h with rfl | h
          · exact ⟨0, rfl, rfl⟩
          · obtain ⟨n, hn, hpath⟩ := ih h
            -- the tag of the first node is counted before the others, as it stands before them
            have htags : (((Node.element tag attributes children :: rest).take (n + 1)).filterMap
                Node.element?).map Element.tag = tag :: ((rest.take n).filterMap Node.element?).map
                Element.tag := rfl
            refine ⟨n + 1, hn, ?_⟩
            rw [hpath, htags, List.count_cons, List.count_cons,
              Nat.add_assoc (before.count w.element.tag), Nat.add_comm (ite _ _ _)]

theorem exists_isChildAt_of_mem_children {v w : Visit} (h : w ∈ v.children) :
    ∃ n, v.IsChildAt n w := by
  obtain ⟨n, hn, hpath⟩ := exists_index_of_mem_below h
  rw [List.count_nil, Nat.zero_add] at hpath
  exact ⟨n, hn, depth_of_mem_children h, hpath⟩

end Visit

/-! ## The order of a walk -/

namespace Scope

variable {scope : Scope} {level : List Visit} {i : Inspection}

/-- An element that is visited stands in the first level, or the walk **goes there from
one that it has inspected** before. The induction is on the walk: what the next level
starts with comes from this one, which is all before it. -/
theorem mem_level_or_exists_of_walk_eq {front back : List Inspection}
    (h : scope.walk level = front ++ i :: back) : (∃ v ∈ level, i = scope.inspect v) ∨
    ∃ v w, scope.inspect v ∈ front ∧ scope.DescendsTo v w ∧ i = scope.inspect w := by
  fun_induction scope.walk level generalizing front with
  | case1 => exact absurd h.symm (List.append_ne_nil_of_right_ne_nil _ (List.cons_ne_nil _ _))
  | case2 v rest found =>
      rename_i ih
      rcases mem_or_exists_of_append_eq h with hfound | ⟨front', rfl, hbelow⟩
      · obtain ⟨u, hu, rfl⟩ := List.mem_map.mp hfound
        exact .inl ⟨u, hu, rfl⟩
      · rcases ih hbelow with ⟨w, hw, rfl⟩ | ⟨u, w, hu, hdown, rfl⟩
        · obtain ⟨j, hj, hnext⟩ := List.mem_flatMap.mp hw
          obtain ⟨u, -, rfl⟩ := List.mem_map.mp hj
          exact .inr ⟨u, w, List.mem_append_left _ hj, hnext, rfl⟩
        · exact .inr ⟨u, w, List.mem_append_right _ hu, hdown, rfl⟩

/-- An **unknown element** is not declared, and nothing else is said of it. No other
inspection gives a violation of that kind. -/
theorem undeclared_of_unknownElement {w : Visit} {x : Violation}
    (hx : x ∈ (scope.inspect w).violations) (hkind : x.kind = .unknownElement) :
    scope.schema.rule? w.element.tag = none ∧ x.path = some w.path ∧
    x.element = some w.element.tag := by
  rw [violations_inspect] at hx
  obtain ⟨y, hy, rfl⟩ := List.mem_map.mp hx
  have hkind : y.kind = .unknownElement := hkind
  -- an element that is too deep, or that has a rule, gives violations of other kinds only
  refine ⟨?_, rfl, rfl⟩
  rcases Nat.lt_or_ge scope.limits.documentDepth w.depth with hdeep | hdepth
  · rw [examine_of_tooDeep hdeep, List.mem_singleton] at hy
    rw [hy] at hkind
    cases hkind
  · cases hrule : scope.schema.rule? w.element.tag with
    | none => rfl
    | some r =>
        rw [examine_of_rule hdepth hrule, List.mem_append] at hy
        rcases hy with hy | hy
        · split at hy
          · obtain ⟨name, -, rfl⟩ := List.mem_map.mp hy
            cases hkind
          · cases hy
        · have hcontent := ElementRule.isOfContent_of_mem_review hy
          rw [hkind] at hcontent
          cases hcontent

end Scope

/-! ## What the parent's review says -/

namespace ElementRule

variable {r : ElementRule} {slot : Slot}

/-- A slot that does not occur in the content is **not allowed**, wherever the cursor
stands when it is offered. -/
theorem exists_notAllowed_of_mem_slots {p : Progress} {slots : List Slot}
    (hinside : r.content.Inside p.cursor) (hslot : slot ∈ slots) (hblank : slot.blank = false)
    (hnot : r.content.isAllowed slot.token = false) :
    ∃ y ∈ r.reviewFrom p slots, y.kind = .notAllowed ∧ y.index = some slot.index ∧
      y.token = some slot.token := by
  induction slots generalizing p with
  | nil => cases hslot
  | cons first rest ih =>
      -- the slot is not taken, as the reading is inside the content, and it is not passed over
      cases hadvance : r.content.advance p.cursor first.token with
      | some next =>
          rw [reviewFrom_cons_of_some hadvance]
          rcases List.mem_cons.mp hslot with rfl | hslot
          · rw [hinside.advance_eq_none hnot] at hadvance
            cases hadvance
          · exact ih (hinside.advance hadvance).1 hslot
      | none =>
          by_cases hpassed : first.blank = true
          · rw [reviewFrom_cons_of_blank hadvance hpassed]
            rcases List.mem_cons.mp hslot with rfl | hslot
            · rw [hpassed] at hblank
              cases hblank
            · exact ih hinside hslot
          · rw [reviewFrom_cons_of_none hadvance (by simpa using hpassed)]
            rcases List.mem_cons.mp hslot with rfl | hslot
            · refine ⟨_, List.mem_cons_self, ?_, rfl, rfl⟩
              simp only [locate, Expression.rejection, Violation.unexpectedChild, hnot,
                Bool.false_eq_true, if_false]
            · obtain ⟨y, hy, hsays⟩ :=
                @ih { p with offered := p.offered + 1, errors := _ } hinside hslot
              exact ⟨y, List.mem_cons_of_mem _ hy, hsays⟩

/-- A child element that the content does not mention is **not allowed at its index**.
Text around it makes no difference, as it is a token of its own. -/
theorem exists_notAllowed_of_children {children : List Node} {n : Nat} {child : Element}
    (hchild : children[n]? = some child.node) (hname : child.tag ∉ r.childNames) :
    ∃ y ∈ r.review children, y.kind = .notAllowed ∧ y.index = some n ∧
      y.token = some (.element child.tag) := by
  obtain ⟨hn, hnode⟩ := List.getElem?_eq_some_iff.mp hchild
  have hsplit : children = children.take n ++ child.node :: children.drop (n + 1) := by
    rw [← hnode, List.getElem_cons_drop, List.take_append_drop]
  have hslot : (⟨n, n, .element child.tag, false⟩ : Slot) ∈ Slot.ofNodes children := by
    rw [hsplit, Element.node, Slot.ofNodes_insert_element, List.length_take_of_le (Nat.le_of_lt hn)]
    exact List.mem_append_right _ List.mem_cons_self
  have hnot : r.content.isAllowed (.element child.tag) = false := by
    rw [Bool.eq_false_iff]
    intro hallowed
    exact hname (Compact.mem_childNames_iff.mpr (Expression.isAllowed_iff.mp hallowed))
  exact exists_notAllowed_of_mem_slots r.content.inside_initial hslot rfl hnot

end ElementRule

/-! ## Whole documents -/

/-- The names that are found undeclared are those that edges lead to **without
a declaration**. -/
theorem ElementGraph.mem_undeclared_iff {s : Schema} {tag child : String} :
    (tag, child) ∈ (ofSchema s).undeclared ↔ (ofSchema s).Edge tag child ∧
      s.rule? child = none := by
  have hdeclares : s.declares child = false ↔ s.rule? child = none := by
    unfold Schema.declares Schema.rule? OrderedTable.contains
    rw [Option.isSome_eq_false_iff, Option.isNone_iff_eq_none]
  rw [Edge, children, OrderedTable.mem_getD_get?_iff, ← hdeclares]
  unfold undeclared
  simp only [List.mem_flatMap, List.mem_map, List.mem_filter, Prod.mk.injEq, Bool.not_eq_true']
  constructor
  · rintro ⟨⟨_, names⟩, hentry, _, ⟨hname, hnot⟩, rfl, rfl⟩
    exact ⟨⟨names, hentry, hname⟩, hnot⟩
  · rintro ⟨⟨names, hentry, hname⟩, hnot⟩
    exact ⟨(tag, names), hentry, child, ⟨hname, hnot⟩, rfl, rfl⟩

/-- A wrong root is **not allowed**, and that is all that can be said before a walk. It
is recorded before anything is visited. -/
theorem Validator.kind_of_mem_ledgerForRoot {V : Validator} {tag : String} {x : Violation}
    (h : x ∈ (V.ledgerForRoot tag).violations) : x.kind = .notAllowed := by
  unfold ledgerForRoot at h
  split at h
  · cases h
  · split at h
    · cases h
    · cases List.mem_singleton.mp h
      rfl

/-- An unknown element is found **on the walk**: a wrong root is a violation of
another kind. -/
theorem Validator.exists_of_unknownElement {V : Validator} (hmode : V.mode ≠ .skip) {root : Element}
    {found before after : List Violation} {x : Violation}
    (hfound : found ∈ [V.validate root, V.validateDocument root])
    (hsplit : found = before ++ x :: after) (hkind : x.kind = .unknownElement) :
    ∃ before' ⊆ before, (V.scope.walk [Visit.root root]).flatMap Inspection.violations = before' ++
      x :: after := by
  rcases List.mem_pair.mp hfound with rfl | rfl
  · rw [V.validate_eq hmode] at hsplit
    exact ⟨before, List.Subset.refl _, hsplit⟩
  · rw [V.validateDocument_eq hmode] at hsplit
    rcases mem_or_exists_of_append_eq hsplit with hx | ⟨before', rfl, hwalk⟩
    · rw [kind_of_mem_ledgerForRoot hx] at hkind
      cases hkind
    · exact ⟨before', List.subset_append_right _ _, hwalk⟩

/-- **Unknown elements are explained.** Where all that the contents of a schema mention
is declared, an unknown element that the strict mode finds below the root is a child of
an element that was visited; and before it the violations have one at the path of that
element, which says that the child at this very index is not allowed. -/
theorem unknownElement_explained (s : Schema)
    (hdeclared : (ElementGraph.ofSchema s).undeclared = []) (limits : Limits) (root : Element) :
    let V : Validator := ⟨s, .strict, limits⟩
    ∀ found ∈ [V.validate root, V.validateDocument root],
      ∀ before x after, found = before ++ x :: after →
      x.kind = .unknownElement → x.path ≠ some (Visit.root root).path →
      ∃ v n w, Relation.ReflTransGen V.scope.DescendsTo (Visit.root root) v ∧ v.IsChildAt n w ∧
        (x.path = some w.path ∧ x.element = some w.element.tag ∧ s.rule? w.element.tag = none) ∧
        ∃ y ∈ before, y.kind = .notAllowed ∧ y.path = some v.path ∧ y.element = some v.element.tag ∧
          y.index = some n ∧ y.token = some (.element w.element.tag) := by
  intro V found hfound before x after hsplit hkind hbelow
  obtain ⟨before', hbefore, hwalk⟩ :=
    V.exists_of_unknownElement ValidationMode.noConfusion hfound hsplit hkind
  obtain ⟨front, i, back, hwalk, hx, hfront⟩ := exists_of_flatMap_eq hwalk
  rcases Scope.mem_level_or_exists_of_walk_eq hwalk with ⟨u, hu, rfl⟩ | ⟨v, w, hv, hdown, rfl⟩
  · cases List.mem_singleton.mp hu
    exact absurd (Scope.undeclared_of_unknownElement hx hkind).2.1 hbelow
  · obtain ⟨hrule, hpath, helement⟩ := Scope.undeclared_of_unknownElement hx hkind
    obtain ⟨⟨hdepth, r, hr⟩, hchild⟩ := Scope.descendsTo_iff.mp hdown
    obtain ⟨n, hn⟩ := Visit.exists_isChildAt_of_mem_children hchild
    have hname : w.element.tag ∉ r.childNames := by
      intro hmentioned
      have hedge : (ElementGraph.ofSchema s).Edge v.element.tag w.element.tag :=
        ElementGraph.edge_ofSchema_iff.mpr ⟨r, hr, hmentioned⟩
      have hundeclared := ElementGraph.mem_undeclared_iff.mpr ⟨hedge, hrule⟩
      rw [hdeclared] at hundeclared
      exact absurd hundeclared List.not_mem_nil
    obtain ⟨y, hy, hykind, hindex, htoken⟩ :=
      ElementRule.exists_notAllowed_of_children hn.node hname
    have hinspected : v.locate y ∈ (V.scope.inspect v).violations := by
      rw [Scope.violations_inspect, Scope.examine_of_rule hdepth hr]
      exact List.mem_map_of_mem (List.mem_append_right _ hy)
    have hreached : Relation.ReflTransGen V.scope.DescendsTo (Visit.root root) v := by
      obtain ⟨u, hu, w', hreach, hsame⟩ := Scope.mem_walk_iff.mp (hwalk ▸ List.mem_append_left _ hv)
      cases List.mem_singleton.mp hu
      rwa [show v = w' from congrArg Inspection.visit hsame]
    exact ⟨v, n, w, hreached, hn, ⟨hpath, helement, hrule⟩, v.locate y,
      hbefore (hfront (List.mem_flatMap.mpr ⟨_, hv, hinspected⟩)), hykind, rfl, rfl, hindex, htoken⟩

/-- A part with a gist in its second node, which no declaration gives, and another one
in a para behind a comment. -/
def partWithGists : Element where
  tag := "part"
  children :=
    [ .element "para" .empty [.text "a", .comment "b", .element "gist" .empty [], .text "c"],
      .element "gist" .empty [] ]

/-- The gist in the para is the last thing found, and one of the violations before it
explains it. -/
theorem unknownElement_explained_partWithGists :
    (ElementGraph.ofSchema outline).undeclared = [] ∧ ∃ before x,
      (Validator.mk outline .strict .standard).validateDocument partWithGists = before ++ [x] ∧
      x.kind = .unknownElement ∧ x.path = some "/part/para[1]/gist[1]" ∧
      ∃ (v : Visit) (n : Nat) (w : Visit), v.IsChildAt n w ∧ w.path = "/part/para[1]/gist[1]" ∧
        ∃ y ∈ before, y.kind = .notAllowed ∧ y.path = some v.path ∧ y.index = some n := by
  have hdeclared : (ElementGraph.ofSchema outline).undeclared = [] := by cbv
  let V : Validator := ⟨outline, .strict, .standard⟩
  have hfound : (V.validateDocument partWithGists).map (fun x => (x.kind, x.path)) =
      [ (.notAllowed, some "/part"), (.notAllowed, some "/part/para[1]"),
        (.misplaced, some "/part/para[1]"), (.unknownElement, some "/part/gist[1]") ] ++
          [(.unknownElement, some "/part/para[1]/gist[1]")] := by cbv
  obtain ⟨before, last, hsplit, -, hlast⟩ := List.map_eq_append_iff.mp hfound
  obtain ⟨x, rfl, hx⟩ := List.map_eq_singleton_iff.mp hlast
  obtain ⟨hkind, hpath⟩ := Prod.mk.inj hx
  have hbelow : x.path ≠ some (Visit.root partWithGists).path := by
    rw [hpath]
    decide
  obtain ⟨v, n, w, -, hn, ⟨hxpath, -, -⟩, y, hy, hykind, hypath, -, hindex, -⟩ :=
    unknownElement_explained outline hdeclared .standard partWithGists
      _ (List.mem_cons_of_mem _ List.mem_cons_self) before x [] hsplit hkind hbelow
  have hwpath : w.path = "/part/para[1]/gist[1]" := Option.some.inj (hxpath.symm.trans hpath)
  exact ⟨hdeclared, before, x, hsplit, hkind, hpath, v, n, w, hn, hwpath, y, hy, hykind,
    hypath, hindex⟩

end TreeGrammar
