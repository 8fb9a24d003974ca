/-
The elements that a walk visits.

A walk goes level by level, and at each visit it decides by itself whether to go on
below. So a visit is in the walk exactly if it is reached from the first level by steps,
and this is all that the order of the walk matters here. From a root, the elements
reached are those for which every element above is declared and not too deep, each at
its own depth.
-/
import TreeGrammar.Validation.Validator
import Mathlib.Data.List.Forall2
import Mathlib.Logic.Relation

set_option autoImplicit false

namespace TreeGrammar

/-! ## Elements of a tree -/

/-- A root **has** the elements of its tree **through** elements of some sort above
them; the root itself has depth one. -/
inductive Element.HasThrough (root : Element) (through : Element → Prop) : Nat → Element → Prop
  | root : HasThrough root through 1 root
  | child {depth : Nat} {e c : Element} (h : HasThrough root through depth e) (hthrough : through e)
      (hc : c ∈ e.childElements) : HasThrough root through (depth + 1) c

/-- An element is somewhere in a tree, at a depth. -/
def Element.Has (root : Element) (depth : Nat) (e : Element) : Prop :=
  root.HasThrough (fun _ => True) depth e

/-- What is reached through elements of some kind is reached. -/
theorem Element.HasThrough.has {root e : Element} {through : Element → Prop} {depth : Nat}
    (h : root.HasThrough through depth e) : root.Has depth e := by
  induction h with
  | root => exact .root
  | child _ _ hc ih => exact .child ih trivial hc

namespace Visit

/-- The visits of the elements among children are one for each, in order. Paths and
depths do not matter here. -/
theorem map_element_below (path : String) (depth : Nat) (before : List String) (ns : List Node) :
    (below path depth before ns).map Visit.element = ns.filterMap Node.element? := by
  induction ns generalizing before with
  | nil => rfl
  | cons n rest ih =>
      cases n with
      | element tag attributes children =>
          simp only [below, List.map_cons, ih, List.filterMap_cons, Node.element?]
      | text s => simp only [below, ih, List.filterMap_cons, Node.element?]
      | comment s => simp only [below, ih, List.filterMap_cons, Node.element?]

theorem depth_of_mem_below {path : String} {depth : Nat} {before : List String}
    {ns : List Node} {v : Visit} (h : v ∈ below path depth before ns) : v.depth = depth := by
  induction ns generalizing before with
  | nil => cases h
  | cons n rest ih =>
      cases n with
      | element tag attributes children =>
          rcases List.mem_cons.mp h with rfl | h
          · rfl
          · exact ih h
      | text s => exact ih h
      | comment s => exact ih h

/-- They are the visits of the child elements, in order; text and comments are
not visited. -/
theorem map_element_children (v : Visit) : v.children.map Visit.element = v.element.childElements :=
  map_element_below v.path (v.depth + 1) [] v.element.children

theorem depth_of_mem_children {v w : Visit} (h : w ∈ v.children) : w.depth = v.depth + 1 :=
  depth_of_mem_below h

end Visit

/-! ## Steps of a walk -/

namespace Scope

variable {scope : Scope} {v w : Visit} {r : ElementRule}

/-- An element that is too deep has that one violation, and **nothing below it is looked
at**. The check comes before the declaration is looked up. -/
theorem examine_of_tooDeep (h : scope.limits.documentDepth < v.depth) :
    scope.examine v =
      ([fault .tooDeep s!"element nests deeper than {scope.limits.documentDepth} levels"
        v.element.tag], false) := by
  simp only [examine, h, if_true]

/-- So with an element that is not declared, which is a violation in the strict
mode only. -/
theorem examine_of_undeclared (h : v.depth ≤ scope.limits.documentDepth)
    (hrule : scope.schema.rule? v.element.tag = none) :
    scope.examine v = (if scope.mode = .strict then
      [fault .unknownElement s!"element '{v.element.tag}' is not declared" v.element.tag]
      else [], false) := by
  simp only [examine, if_neg (Nat.not_lt.mpr h), hrule]

/-- A declared element has the violations of its attributes, in the strict mode, and
then those of its children. The walk goes on below whatever they are. -/
theorem examine_of_rule (h : v.depth ≤ scope.limits.documentDepth)
    (hrule : scope.schema.rule? v.element.tag = some r) :
    scope.examine v = ((if scope.mode = .strict then reviewAttributes r v.element else [])
      ++ r.review v.element.children, true) := by
  simp only [examine, if_neg (Nat.not_lt.mpr h), hrule]

/-- What an inspection finds is what was examined, with the place put in. -/
theorem violations_inspect (scope : Scope) (v : Visit) :
    (scope.inspect v).violations = (scope.examine v).1.map v.locate := rfl

theorem descends_inspect (scope : Scope) (v : Visit) :
    (scope.inspect v).descends = (scope.examine v).2 := rfl

theorem visit_inspect (scope : Scope) (v : Visit) : (scope.inspect v).visit = v := rfl

/-- The schema has a rule for the element. -/
def Declared (scope : Scope) (e : Element) : Prop := ∃ r, scope.schema.rule? e.tag = some r

/-- The walk goes on below an element **exactly if** it is declared and not too deep. -/
theorem descends_inspect_iff :
    (scope.inspect v).descends = true ↔ v.depth ≤ scope.limits.documentDepth ∧
      scope.Declared v.element := by
  rw [descends_inspect]
  rcases Nat.lt_or_ge scope.limits.documentDepth v.depth with hdeep | hdepth
  · rw [examine_of_tooDeep hdeep]
    exact iff_of_false Bool.false_ne_true fun h => Nat.not_le.mpr hdeep h.1
  · cases hrule : scope.schema.rule? v.element.tag with
    | none =>
        rw [examine_of_undeclared hdepth hrule]
        refine iff_of_false Bool.false_ne_true ?_
        rintro ⟨-, r, hr⟩
        rw [hrule] at hr
        cases hr
    | some r =>
        rw [examine_of_rule hdepth hrule]
        exact iff_of_true rfl ⟨hdepth, r, hrule⟩

/-- A walk **descends** from a visit to each of those it goes on with. -/
def DescendsTo (scope : Scope) (v w : Visit) : Prop := w ∈ (scope.inspect v).next

/-- One step of a walk leads from such an element to any of its children. -/
theorem descendsTo_iff :
    scope.DescendsTo v w ↔ (v.depth ≤ scope.limits.documentDepth ∧ scope.Declared v.element) ∧
      w ∈ v.children := by
  unfold DescendsTo Inspection.next
  rw [← descends_inspect_iff, visit_inspect]
  by_cases h : (scope.inspect v).descends = true <;> simp [h]

/-- A walk **visits** what its first level leads to, and nothing else. The induction is
on the walk, whose next level is one step on. -/
theorem mem_walk_iff {level : List Visit} {i : Inspection} :
    i ∈ scope.walk level ↔ ∃ v ∈ level, ∃ w, Relation.ReflTransGen scope.DescendsTo v w ∧
      i = scope.inspect w := by
  induction level using Scope.walk.induct scope with
  | case1 =>
      rw [walk]
      simp only [List.not_mem_nil, false_and, exists_false]
  | case2 v rest found ih =>
      have hfound {i : Inspection} : i ∈ found ↔ ∃ u ∈ v :: rest, scope.inspect u = i :=
        List.mem_map
      rw [walk, List.mem_append, ih, hfound]
      constructor
      · rintro (⟨u, hu, rfl⟩ | ⟨u', hu', w, hreach, rfl⟩)
        · exact ⟨u, hu, u, .refl, rfl⟩
        · obtain ⟨i, hi, hnext⟩ := List.mem_flatMap.mp hu'
          obtain ⟨u, hu, rfl⟩ := hfound.mp hi
          exact ⟨u, hu, w, .head hnext hreach, rfl⟩
      · rintro ⟨u, hu, w, hreach, rfl⟩
        rcases Relation.ReflTransGen.cases_head hreach with rfl | ⟨u', hdown, hreach⟩
        · exact .inl ⟨u, hu, rfl⟩
        · exact .inr ⟨u', List.mem_flatMap.mpr ⟨_, hfound.mpr ⟨u, hu, rfl⟩, hdown⟩, w, hreach, rfl⟩

/-! ## Two walks side by side -/

/-- Walks that start alike and go on alike **stay in step**: whatever inspections of
visits that match have in common, the two walks have in common one for one. The
induction is on the walk on the left; matching levels lead to matching levels. -/
theorem forall₂_walk {scope scope' : Scope} {Found : Inspection → Inspection → Prop}
    {Paired : Visit → Visit → Prop}
    (hinspect : ∀ v w, Paired v w → Found (scope.inspect v) (scope'.inspect w))
    (hnext : ∀ v w, Paired v w → List.Forall₂ Paired (scope.inspect v).next (scope'.inspect w).next)
    {level level' : List Visit} (h : List.Forall₂ Paired level level') :
    List.Forall₂ Found (scope.walk level) (scope'.walk level') := by
  fun_induction scope.walk level generalizing level' with
  | case1 =>
      cases h
      rw [walk]
      exact .nil
  | case2 v rest found =>
      rename_i ih
      -- paired levels are inspected alike, and what is below them is paired again
      have hfound : List.Forall₂ Found found (level'.map scope'.inspect) := by
        rw [List.forall₂_map_left_iff, List.forall₂_map_right_iff]
        exact h.imp hinspect
      have hbelow : List.Forall₂ Paired (found.flatMap Inspection.next)
          ((level'.map scope'.inspect).flatMap Inspection.next) := by
        rw [List.flatMap_map, List.flatMap_map]
        exact List.rel_flatMap h fun _ _ hvw => hnext _ _ hvw
      cases h with
      | cons =>
          rw [walk]
          exact List.rel_append hfound (ih hbelow)

/-- Walks that agree at each visit on whether to go on below inspect **the same
visits**. It is the case of matching levels that are the same level. -/
theorem forall₂_walk_of_descends {scope scope' : Scope} {Found : Inspection → Inspection → Prop}
    (hinspect : ∀ v, Found (scope.inspect v) (scope'.inspect v))
    (hdescends : ∀ v, (scope.inspect v).descends = (scope'.inspect v).descends)
    (level : List Visit) : List.Forall₂ Found (scope.walk level) (scope'.walk level) := by
  have hinspect (v w : Visit) (hvw : v = w) : Found (scope.inspect v) (scope'.inspect w) := by
    rw [← hvw]
    exact hinspect v
  have hnext (v w : Visit) (hvw : v = w) :
      List.Forall₂ (fun v w => v = w) (scope.inspect v).next (scope'.inspect w).next := by
    rw [List.forall₂_eq_eq_eq, ← hvw, Inspection.next, Inspection.next, hdescends v,
      visit_inspect, visit_inspect]
  exact forall₂_walk hinspect hnext (List.forall₂_same.mpr fun _ _ => rfl)

/-! ## The visits from a root -/

variable {root : Element}

/-- Whatever is visited is in the tree, at the depth of the visit and below declared
elements only. By induction on the steps of the walk. -/
theorem hasThrough_of_reached (h : Relation.ReflTransGen scope.DescendsTo (Visit.root root) w) :
    root.HasThrough scope.Declared w.depth w.element := by
  induction h with
  | refl => exact .root
  | tail _ hdown ih =>
      obtain ⟨⟨-, hdeclared⟩, hchild⟩ := descendsTo_iff.mp hdown
      rw [Visit.depth_of_mem_children hchild]
      apply ih.child hdeclared
      rw [← Visit.map_element_children]
      exact List.mem_map_of_mem hchild

/-- An element below declared elements is **visited**, unless an element above it is too
deep. By induction on the way down to it. -/
theorem reached_of_hasThrough {depth : Nat} {e : Element}
    (h : root.HasThrough scope.Declared depth e) (hdepth : depth ≤ scope.limits.documentDepth + 1) :
    ∃ w, Relation.ReflTransGen scope.DescendsTo (Visit.root root) w ∧ w.element = e ∧
      w.depth = depth := by
  induction h with
  | root => exact ⟨Visit.root root, .refl, rfl, rfl⟩
  | child _ hthrough hc ih =>
      obtain ⟨v, hreach, rfl, rfl⟩ := ih (by omega)
      rw [← Visit.map_element_children] at hc
      obtain ⟨w, hw, rfl⟩ := List.mem_map.mp hc
      refine ⟨w, hreach.tail ?_, rfl, Visit.depth_of_mem_children hw⟩
      exact descendsTo_iff.mpr ⟨⟨by omega, hthrough⟩, hw⟩

end Scope

/-! ## What a ledger's walk finds -/

namespace Ledger

variable {l : Ledger} {s : Schema} {root : Element}

/-- What a ledger's walk **inspects**; in the mode that skips, nothing. -/
def found (l : Ledger) (s : Schema) (root : Element) : List Inspection :=
  if l.mode = .skip then [] else (⟨s, l.mode, l.limits⟩ : Scope).walk [Visit.root root]

theorem found_of_skip (h : l.mode = .skip) : l.found s root = [] := if_pos h

theorem found_of_ne_skip (h : l.mode ≠ .skip) :
    l.found s root = (⟨s, l.mode, l.limits⟩ : Scope).walk [Visit.root root] := if_neg h

/-- A ledger's walk **adds what it finds**, and nothing else. What a ledger has recorded
before does not influence what is visited. -/
theorem walk_eq_record (l : Ledger) (s : Schema) (root : Element) :
    l.walk s root = l.record (l.found s root) := by
  unfold walk
  by_cases hmode : l.mode = .skip
  · rw [if_pos hmode, found_of_skip hmode, record, List.flatMap_nil, List.append_nil]
    rfl
  · rw [if_neg hmode, found_of_ne_skip hmode]

/-- Whatever is found was found at a visit that the walk has come to. -/
theorem exists_reached_of_mem_found {i : Inspection} (h : i ∈ l.found s root) :
    ∃ w, Relation.ReflTransGen (⟨s, l.mode, l.limits⟩ : Scope).DescendsTo (Visit.root root) w ∧
      i = (⟨s, l.mode, l.limits⟩ : Scope).inspect w := by
  unfold found at h
  split at h
  · cases h
  · obtain ⟨v, hv, w, hreach, rfl⟩ := Scope.mem_walk_iff.mp h
    cases List.mem_singleton.mp hv
    exact ⟨w, hreach, rfl⟩

end Ledger

end TreeGrammar
