/-
When a document has no violations.

In the strict mode a validator finds nothing exactly if the root is the start element
and each element of the tree is right by itself: not too deep, declared, with declared
attributes, and with children that its content reads to an end. The walk stops below an
element that is too deep or not declared, but that element is a violation; so a walk
that finds nothing has stopped nowhere, and has been everywhere.
-/
import TreeGrammar.Proofs.Validation.Review
import TreeGrammar.Proofs.Validation.Walk

set_option autoImplicit false

namespace TreeGrammar

/-- A rule **admits** an element: its attributes are declared or declare namespaces, and
its children are read to a place where the content may end. -/
structure ElementRule.Admits (r : ElementRule) (e : Element) : Prop where
  attributes : ∀ name ∈ e.attributes.keys,
    name ∈ r.attributes ∨ name = "xmlns" ∨ "xmlns:".toList <+: name.toList
  children : ∃ last, r.content.Reads r.content.initial (Slot.ofNodes e.children) last ∧
    r.content.isFinishedAt last = true

/-! ## One element -/

/-- The two forms of a namespace declaration, the default one and the prefixed one. -/
theorem isNamespaceDeclaration_iff {name : String} :
    isNamespaceDeclaration name = true ↔ name = "xmlns" ∨ "xmlns:".toList <+: name.toList := by
  unfold isNamespaceDeclaration
  rw [Bool.or_eq_true, beq_iff_eq, List.isPrefixOf_iff_prefix]

/-- The attributes are right exactly if each is declared or declares a namespace. -/
theorem reviewAttributes_eq_nil_iff {r : ElementRule} {e : Element} :
    Scope.reviewAttributes r e = [] ↔ ∀ name ∈ e.attributes.keys,
      name ∈ r.attributes ∨ name = "xmlns" ∨ "xmlns:".toList <+: name.toList := by
  unfold Scope.reviewAttributes
  rw [List.map_eq_nil_iff, List.filter_eq_nil_iff]
  have hname (name : String) : (¬ (!(isNamespaceDeclaration name || r.hasAttribute name)) = true) ↔
      (name ∈ r.attributes ∨ name = "xmlns" ∨ "xmlns:".toList <+: name.toList) := by
    rw [Bool.not_eq_true, Bool.not_eq_false', Bool.or_eq_true, isNamespaceDeclaration_iff, or_comm]
    unfold ElementRule.hasAttribute
    rw [decide_eq_true_iff]
  simp only [hname]

/-- Nothing is wrong at a visit exactly if the element there is not too deep and its
rule admits it. Depth, attributes and children are looked at in turn. -/
theorem Scope.violations_eq_nil_iff {scope : Scope} (hmode : scope.mode = .strict) {v : Visit} :
    (scope.inspect v).violations = [] ↔ v.depth ≤ scope.limits.documentDepth ∧
      ∃ r, scope.schema.rule? v.element.tag = some r ∧ r.Admits v.element := by
  rw [violations_inspect, List.map_eq_nil_iff]
  -- the three outcomes of an inspection: too deep, undeclared, and reviewed by its rule
  rcases Nat.lt_or_ge scope.limits.documentDepth v.depth with hdeep | hdepth
  · rw [examine_of_tooDeep hdeep]
    exact iff_of_false (List.cons_ne_nil _ _) fun h => Nat.not_le.mpr hdeep h.1
  · rw [and_iff_right hdepth]
    cases hrule : scope.schema.rule? v.element.tag with
    | none =>
        rw [examine_of_undeclared hdepth hrule, if_pos hmode]
        refine iff_of_false (List.cons_ne_nil _ _) ?_
        rintro ⟨r, hr, -⟩
        cases hr
    | some r =>
        rw [examine_of_rule hdepth hrule, if_pos hmode, List.append_eq_nil_iff,
          reviewAttributes_eq_nil_iff, ElementRule.review_eq_nil_iff]
        constructor
        · rintro ⟨hattributes, hchildren⟩
          exact ⟨r, rfl, hattributes, hchildren⟩
        · rintro ⟨r', hr, hadmits⟩
          cases hr
          exact ⟨hadmits.attributes, hadmits.children⟩

/-! ## A whole tree -/

namespace Validator

/-- The scope of a validator's walks. -/
def scope (v : Validator) : Scope := { schema := v.schema, mode := v.mode, limits := v.limits }

/-- A tree has **the violations that are found**, whatever the mode. When the mode is to
skip, nothing is found, as nothing is visited. -/
theorem validate_eq_found (v : Validator) (root : Element) :
    v.validate root = (v.ledger.found v.schema root).flatMap Inspection.violations := by
  rw [validate, Ledger.walk_eq_record]
  rfl

/-- A tree has the violations that are found on its walk. -/
theorem validate_eq (v : Validator) (hmode : v.mode ≠ .skip) (root : Element) :
    v.validate root = (v.scope.walk [Visit.root root]).flatMap Inspection.violations := by
  rw [validate_eq_found, Ledger.found_of_ne_skip (show v.ledger.mode ≠ .skip from hmode)]
  rfl

/-- Asking for the start changes neither how a walk is made nor how many elements it
has visited. -/
theorem ledgerForRoot_start (v : Validator) (tag : String) :
    (v.ledgerForRoot tag).mode = v.mode ∧ (v.ledgerForRoot tag).limits = v.limits ∧
      (v.ledgerForRoot tag).visited = 0 := by
  unfold ledgerForRoot
  split
  · exact ⟨rfl, rfl, rfl⟩
  · split <;> exact ⟨rfl, rfl, rfl⟩

/-- A document's walk **adds** to what the root was found to be. The two parts of a
document's verdict can therefore be looked at apart. -/
theorem walk_ledgerForRoot (v : Validator) (hmode : v.mode ≠ .skip) (root : Element) :
    (v.ledgerForRoot root.tag).walk v.schema root =
      (v.ledgerForRoot root.tag).record (v.scope.walk [Visit.root root]) := by
  obtain ⟨hledger, hlimits, -⟩ := v.ledgerForRoot_start root.tag
  rw [Ledger.walk_eq_record, Ledger.found, hledger, hlimits, if_neg hmode]
  rfl

/-- A document has the violation of its root, if there is one, and those that are found
on its walk. -/
theorem validateDocument_eq (v : Validator) (hmode : v.mode ≠ .skip) (root : Element) :
    v.validateDocument root = (v.ledgerForRoot root.tag).violations
      ++ (v.scope.walk [Visit.root root]).flatMap Inspection.violations := by
  unfold validateDocument
  rw [v.walk_ledgerForRoot hmode]
  rfl

/-- A document's walk visits as many elements as it inspects. -/
theorem visited_walk_ledgerForRoot (v : Validator) (hmode : v.mode ≠ .skip) (root : Element) :
    ((v.ledgerForRoot root.tag).walk v.schema root).visited =
      (v.scope.walk [Visit.root root]).length := by
  rw [v.walk_ledgerForRoot hmode, Ledger.record, (v.ledgerForRoot_start root.tag).2.2, Nat.zero_add]

/-- The root is right exactly if it is **the start element**, where the schema has one.
A schema without a start asks nothing of the root. -/
theorem ledgerForRoot_eq_nil_iff (v : Validator) (hmode : v.mode ≠ .skip) (tag : String) :
    (v.ledgerForRoot tag).violations = [] ↔ ∀ start, v.schema.start = some start → tag = start := by
  unfold ledgerForRoot
  cases hstart : v.schema.start with
  | none =>
      refine iff_of_true rfl ?_
      intro start h
      cases h
  | some start =>
      by_cases htag : tag = start
      · subst htag
        simp [ledger]
      · have hwrong : ¬ (v.mode = .skip ∨ tag = start) := fun h => h.elim hmode htag
        simp only [if_neg hwrong, Ledger.add]
        exact iff_of_false (List.append_ne_nil_of_right_ne_nil _ (List.cons_ne_nil _ _))
          fun h => htag (h start rfl)

end Validator

/-- A walk from a root finds **nothing** exactly if every element of the tree is right
by itself. Where something is wrong above an element it need not be visited, but then
that was found. -/
theorem Scope.walk_clear_iff {scope : Scope} (hmode : scope.mode = .strict) {root : Element} :
    (scope.walk [Visit.root root]).flatMap Inspection.violations = [] ↔
      ∀ depth e, root.Has depth e →
      depth ≤ scope.limits.documentDepth ∧ ∃ r, scope.schema.rule? e.tag = some r ∧ r.Admits e := by
  rw [List.flatMap_eq_nil_iff]
  constructor
  · intro hclear depth e hhas
    -- what is visited is right, so the walk goes on below it; by induction
    -- everything is visited
    have hright {depth : Nat} {e : Element} (hhas : root.HasThrough scope.Declared depth e)
        (hdepth : depth ≤ scope.limits.documentDepth + 1) :
        depth ≤ scope.limits.documentDepth ∧ ∃ r, scope.schema.rule? e.tag = some r ∧
          r.Admits e := by
      obtain ⟨w, hreach, rfl, rfl⟩ := reached_of_hasThrough hhas hdepth
      apply (violations_eq_nil_iff hmode).mp
      exact hclear _ (mem_walk_iff.mpr ⟨_, List.mem_singleton_self _, w, hreach, rfl⟩)
    suffices hvisited : root.HasThrough scope.Declared depth e ∧
        depth ≤ scope.limits.documentDepth + 1 from
      hright hvisited.1 hvisited.2
    induction hhas with
    | root => exact ⟨.root, by omega⟩
    | child _ _ hc ih =>
        obtain ⟨hdepth, r, hr, -⟩ := hright ih.1 ih.2
        exact ⟨ih.1.child ⟨r, hr⟩ hc, by omega⟩
  · intro hright i hi
    obtain ⟨v, hv, w, hreach, rfl⟩ := mem_walk_iff.mp hi
    cases List.mem_singleton.mp hv
    apply (violations_eq_nil_iff hmode).mpr
    exact hright w.depth w.element (hasThrough_of_reached hreach).has

/-- **Strict validation is exact.** A document has no violations exactly if its root is
the start element, where the schema has one, and every element of the tree is not too
deep, is declared, and is admitted by its rule. -/
theorem validateDocument_eq_nil_iff (s : Schema) (limits : Limits) (root : Element) :
    (Validator.mk s .strict limits).validateDocument root = [] ↔
      (∀ start, s.start = some start → root.tag = start) ∧
        ∀ depth e, root.Has depth e →
          depth ≤ limits.documentDepth ∧ ∃ r, s.rule? e.tag = some r ∧ r.Admits e := by
  have hmode : (Validator.mk s .strict limits).mode ≠ .skip := by
    intro h
    cases h
  rw [Validator.validateDocument_eq _ hmode, List.append_eq_nil_iff,
    Validator.ledgerForRoot_eq_nil_iff _ hmode, Scope.walk_clear_iff rfl]
  rfl

end TreeGrammar
