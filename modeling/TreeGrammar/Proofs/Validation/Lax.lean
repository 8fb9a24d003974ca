/-
What the lax mode leaves out.

The modes part only where a name is not declared: the strict mode names the element, or
each such attribute, and the lax mode says nothing. Neither mode goes on below an
undeclared element, and attributes have no say in where a walk goes. So both walks
inspect the same visits in the same order, and at each of them the lax mode finds what
the strict mode finds less the undeclared names.
-/
import TreeGrammar.Proofs.Validation.Verdict

set_option autoImplicit false

namespace TreeGrammar

/-- Whether a violation of the kind is a **name that is not declared**. -/
def ViolationKind.isUndeclared : ViolationKind → Bool
  | .unknownElement => true
  | .unknownAttribute => true
  | _ => false

theorem ViolationKind.isUndeclared_of_isOfContent {k : ViolationKind} (h : k.isOfContent = true) :
    k.isUndeclared = false := by
  cases k with
  | notAllowed | misplaced | incomplete | tooDeep => rfl
  | unknownElement | unknownAttribute => cases h

/-- The violations that are **not about undeclared names**, in order. -/
def sparingNames (vs : List Violation) : List Violation := vs.filter fun x => !x.kind.isUndeclared

/-- Violations are spared one by one, so it does not matter how lists are cut. -/
theorem sparingNames_append (vs ws : List Violation) :
    sparingNames (vs ++ ws) = sparingNames vs ++ sparingNames ws := List.filter_append ..

/-- A place that is written into violations does not change which of them are
about names. -/
theorem sparingNames_map_locate (v : Visit) (vs : List Violation) :
    sparingNames (vs.map v.locate) = (sparingNames vs).map v.locate := by
  unfold sparingNames
  rw [List.filter_map]
  rfl

theorem sparingNames_reviewAttributes (r : ElementRule) (e : Element) :
    sparingNames (Scope.reviewAttributes r e) = [] := by
  unfold sparingNames
  rw [List.filter_eq_nil_iff]
  intro x hx
  obtain ⟨name, -, rfl⟩ := List.mem_map.mp hx
  exact Bool.false_ne_true

/-- A review is never about undeclared names, so all of it is kept. -/
theorem sparingNames_review (r : ElementRule) (children : List Node) :
    sparingNames (r.review children) = r.review children := by
  unfold sparingNames
  rw [List.filter_eq_self]
  intro x hx
  rw [ViolationKind.isUndeclared_of_isOfContent (ElementRule.isOfContent_of_mem_review hx)]
  rfl

/-! ## One element -/

namespace Scope

variable (s : Schema) (limits : Limits)

/-- At one element the lax mode finds **what the strict mode finds less undeclared
names**, and both agree on whether to go on below. -/
theorem examine_lax (v : Visit) :
    (⟨s, .lax, limits⟩ : Scope).examine v =
      (sparingNames ((⟨s, .strict, limits⟩ : Scope).examine v).1,
        ((⟨s, .strict, limits⟩ : Scope).examine v).2) := by
  rcases Nat.lt_or_ge limits.documentDepth v.depth with hdeep | hdepth
  · rw [examine_of_tooDeep hdeep, examine_of_tooDeep hdeep]
    rfl
  · cases hrule : s.rule? v.element.tag with
    | none =>
        rw [examine_of_undeclared hdepth hrule, examine_of_undeclared hdepth hrule]
        rfl
    | some r =>
        rw [examine_of_rule hdepth hrule, examine_of_rule hdepth hrule,
          if_neg (show ValidationMode.lax ≠ .strict by decide), if_pos rfl, sparingNames_append,
          sparingNames_reviewAttributes, sparingNames_review]

end Scope

/-- The inspections are of the same visit, agree on whether to go on below, and the
first has found **what the second has found less undeclared names**. -/
structure Inspection.Spares (i j : Inspection) : Prop where
  visit : i.visit = j.visit
  descends : i.descends = j.descends
  violations : i.violations = sparingNames j.violations

/-- At one element the lax inspection finds what the strict one does, **sparing
undeclared names**, and goes on below at the same elements. -/
theorem Scope.inspect_lax (s : Schema) (limits : Limits) (v : Visit) :
    ((⟨s, .lax, limits⟩ : Scope).inspect v).Spares ((⟨s, .strict, limits⟩ : Scope).inspect v) where
  visit := rfl
  descends := by rw [descends_inspect, descends_inspect, examine_lax]
  violations := by rw [violations_inspect, violations_inspect, examine_lax, sparingNames_map_locate]

/-! ## Whole walks -/

/-- The two walks **stay in step**: they inspect the same visits one after the
other. Whether a visit goes on below depends on the depth and the declaration, not
on the mode. -/
theorem Scope.walk_lax (s : Schema) (limits : Limits) (level : List Visit) :
    List.Forall₂ Inspection.Spares ((⟨s, .lax, limits⟩ : Scope).walk level)
      ((⟨s, .strict, limits⟩ : Scope).walk level) :=
  forall₂_walk_of_descends (inspect_lax s limits) (fun v => (inspect_lax s limits v).descends) level

theorem Inspection.flatMap_violations_of_spares {is js : List Inspection}
    (h : List.Forall₂ Spares is js) :
    is.flatMap violations = sparingNames (js.flatMap violations) := by
  induction h with
  | nil => rfl
  | cons hij _ ih =>
      rw [List.flatMap_cons, List.flatMap_cons, sparingNames_append, hij.violations, ih]

/-- A violation of the root is not about an undeclared name, and both modes ask for the
same start. -/
theorem Validator.violations_ledgerForRoot_lax (s : Schema) (limits : Limits) (tag : String) :
    ((⟨s, .lax, limits⟩ : Validator).ledgerForRoot tag).violations =
      sparingNames ((⟨s, .strict, limits⟩ : Validator).ledgerForRoot tag).violations := by
  have hskip {mode : ValidationMode} (hmode : mode ≠ .skip) {start : String} :
      (mode = .skip ∨ tag = start) ↔ tag = start := or_iff_right hmode
  unfold ledgerForRoot
  cases s.start with
  | none => rfl
  | some start =>
      simp only [hskip (show ValidationMode.lax ≠ .skip by decide),
        hskip (show ValidationMode.strict ≠ .skip by decide)]
      split <;> rfl

/-! ## Whole documents -/

/-- **The lax mode is the strict mode less undeclared names.** Whatever the schema, the
bounds and the document, what the lax mode reports is what the strict mode reports
without the undeclared elements and attributes, in the same order and the same in every
part, and both walks visit as many elements. -/
theorem validateDocument_lax (s : Schema) (limits : Limits) (root : Element) :
    let lax : Validator := ⟨s, .lax, limits⟩
    let strict : Validator := ⟨s, .strict, limits⟩
    lax.validateDocument root =
        (strict.validateDocument root).filter (fun x => !x.kind.isUndeclared) ∧
      ((lax.ledgerForRoot root.tag).walk s root).visited =
        ((strict.ledgerForRoot root.tag).walk s root).visited := by
  intro lax strict
  -- the walks visit the same elements, and spare the same violations at each
  have hwalk := Scope.walk_lax s limits [Visit.root root]
  have hlax : lax.mode ≠ .skip := by
    intro h
    cases h
  have hstrict : strict.mode ≠ .skip := by
    intro h
    cases h
  constructor
  · show _ = sparingNames _
    rw [lax.validateDocument_eq hlax, strict.validateDocument_eq hstrict, sparingNames_append,
      Validator.violations_ledgerForRoot_lax]
    congr 1
    exact Inspection.flatMap_violations_of_spares hwalk
  · exact (lax.visited_walk_ledgerForRoot hlax root).trans
      (hwalk.length_eq.trans (strict.visited_walk_ledgerForRoot hstrict root).symm)

end TreeGrammar
