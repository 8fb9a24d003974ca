/-
Schemas that report alike.

Two schemas with the same tags, the same start and rules that are alike report the same
violations, one for one and in the same order. The tokens that a violation names as
expected may come in another order, since they come in the order of a table's rows. The
argument goes down the way a report is made: an element is reviewed slot by slot, with
progress on both sides that matches; a walk inspects the same visits on both sides,
since an inspection decides on both whether to go on below.
-/
import TreeGrammar.Proofs.Content.Alike
import TreeGrammar.Proofs.Table
import TreeGrammar.Proofs.Validation.Walk

set_option autoImplicit false

namespace TreeGrammar

/-- The violations **say the same**, but for the order in which they name what would
have been taken. -/
structure Violation.Alike (v w : Violation) : Prop where
  kind : v.kind = w.kind
  message : v.message = w.message
  path : v.path = w.path
  element : v.element = w.element
  token : v.token = w.token
  index : v.index = w.index
  expected : ∀ x, x ∈ v.expected ↔ x ∈ w.expected

theorem Violation.Alike.refl (v : Violation) : v.Alike v :=
  ⟨rfl, rfl, rfl, rfl, rfl, rfl, fun _ => Iff.rfl⟩

/-- Violations say **the same as themselves**. What a walk reports without looking at a
content, such as attributes and elements that are too deep, is compared by this. -/
theorem Violation.Alike.forall₂_refl (vs : List Violation) :
    List.Forall₂ Violation.Alike vs vs :=
  List.forall₂_same.mpr fun v _ => .refl v

/-! ## Reviews -/

/-- The rules are of one tag and kind, with the same attributes and contents
that are alike. -/
structure ElementRule.Alike (r r' : ElementRule) : Prop where
  tag : r.tag = r'.tag
  kind : r.kind = r'.kind
  attributes : r.attributes = r'.attributes
  content : r.content.Alike r'.content

namespace Expression

variable {e e' : Expression} {p p' : Progress}

/-- As many tokens have been offered to both, and the cursors match. -/
structure InStep (e e' : Expression) (p p' : Progress) : Prop where
  offered : p.offered = p'.offered
  cursor : CursorsAlike e e' p.cursor p'.cursor

theorem Alike.begin (h : e.Alike e') : InStep e e' e.begin e'.begin := ⟨rfl, h.initial⟩

/-- A token that both refuse is refused **in the same words**: whether it occurs anywhere
decides on the kind, and the place is how many have been offered. What would have been taken
is the same up to order. -/
theorem Alike.rejection (h : e.Alike e') (hp : InStep e e' p p') (x : Token) :
    (e.rejection p x).Alike (e'.rejection p' x) := by
  unfold Expression.rejection
  rw [h.isAllowed_eq x, hp.offered]
  exact ⟨rfl, rfl, rfl, rfl, rfl, rfl, hp.cursor.mem_expectedAt_iff⟩

/-- Ending is a violation on both sides or on neither. -/
theorem InStep.finish (hp : InStep e e' p p') :
    Option.Rel Violation.Alike (e.finish p) (e'.finish p') := by
  unfold Expression.finish isFinished
  rw [hp.cursor.isFinishedAt_eq, hp.offered]
  by_cases hfinished : e'.isFinishedAt p'.cursor = true
  · rw [if_pos hfinished, if_pos hfinished]
    exact .none
  · rw [if_neg hfinished, if_neg hfinished]
    exact .some ⟨rfl, rfl, rfl, rfl, rfl, rfl, hp.cursor.mem_expectedAt_iff⟩

end Expression

namespace ElementRule

variable {r r' : ElementRule} {p p' : Progress}

theorem Alike.locate (h : r.Alike r') (slot : Slot) {v w : Violation} (hvw : v.Alike w) :
    (r.locate slot v).Alike (r'.locate slot w) where
  kind := hvw.kind
  message := hvw.message
  path := hvw.path
  element := by rw [ElementRule.locate, ElementRule.locate, h.tag]
  token := hvw.token
  index := rfl
  expected := hvw.expected

/-- At the end **both sides complain or neither does**. The complaint is put at the element,
and the tags are the same. -/
theorem Alike.ending (h : r.Alike r') (hp : Expression.InStep r.content r'.content p p') :
    List.Forall₂ Violation.Alike (r.ending p).toList (r'.ending p').toList := by
  have hfinish := hp.finish
  unfold ElementRule.ending
  generalize r.content.finish p = o at hfinish ⊢
  generalize r'.content.finish p' = o' at hfinish ⊢
  cases hfinish with
  | none => exact .nil
  | some hv =>
      refine .cons ⟨hv.kind, hv.message, hv.path, ?_, hv.token, hv.index, hv.expected⟩ .nil
      show some r.tag = some r'.tag
      rw [h.tag]

/-- Rules that are alike find **the same in the same slots**. The induction is on the
slots; a rejected token leaves the cursors where they are, and a blank one leaves the
progress as a whole. -/
theorem Alike.reviewFrom (h : r.Alike r') (slots : List Slot)
    (hp : Expression.InStep r.content r'.content p p') :
    List.Forall₂ Violation.Alike (r.reviewFrom p slots) (r'.reviewFrom p' slots) := by
  induction slots generalizing p p' with
  | nil => exact h.ending hp
  | cons slot rest ih =>
      have hadvance := hp.cursor.advance slot.token
      unfold ElementRule.reviewFrom Expression.offer
      generalize r.content.advance p.cursor slot.token = o at hadvance ⊢
      generalize r'.content.advance p'.cursor slot.token = o' at hadvance ⊢
      cases hadvance with
      | some hc =>
          apply ih
          exact ⟨by rw [hp.offered], hc⟩
      | none =>
          dsimp only
          by_cases hblank : slot.blank = true
          · rw [if_pos hblank, if_pos hblank]
            exact ih hp
          · rw [if_neg hblank, if_neg hblank]
            refine .cons (h.locate slot (h.content.rejection hp slot.token)) ?_
            apply ih
            exact ⟨by rw [hp.offered], hp.cursor⟩

/-- Rules that are alike find **the same in the same children**. The slots are made of the
children alone, and both sides begin in step. -/
theorem Alike.review (h : r.Alike r') (children : List Node) :
    List.Forall₂ Violation.Alike (r.review children) (r'.review children) :=
  h.reviewFrom (Slot.ofNodes children) h.content.begin

theorem Alike.withTieBreak (h : r.Alike r') (tieBreak : TieBreak) :
    (r.withTieBreak tieBreak).Alike (r'.withTieBreak tieBreak) :=
  ⟨h.tag, h.kind, h.attributes, h.content.withTieBreak tieBreak⟩

end ElementRule

/-! ## Schemas -/

namespace Schema

/-- The schemas have the same start and, tag by tag in the same order, rules
that are alike. -/
structure Alike (s s' : Schema) : Prop where
  entries : List.Forall₂ (fun p q => p.1 = q.1 ∧ p.2.Alike q.2) s.elements.entries
      s'.elements.entries
  start : s.start = s'.start

variable {s s' : Schema}

/-- Lists that are related key by key have the same keys. -/
theorem map_fst_eq_of_forall₂ {l l' : List (String × ElementRule)}
    (h : List.Forall₂ (fun p q => p.1 = q.1 ∧ p.2.Alike q.2) l l') :
    l.map Prod.fst = l'.map Prod.fst := by
  induction h with
  | nil => rfl
  | cons hpq _ ih => rw [List.map_cons, List.map_cons, hpq.1, ih]

theorem Alike.tags_eq (h : s.Alike s') : s.tags = s'.tags := map_fst_eq_of_forall₂ h.entries

/-- The rules are **alike one for one**, in the order of their entries. -/
theorem Alike.rules (h : s.Alike s') : List.Forall₂ ElementRule.Alike s.rules s'.rules := by
  unfold Schema.rules OrderedTable.values
  rw [List.forall₂_map_left_iff, List.forall₂_map_right_iff]
  exact h.entries.imp fun _ _ hpq => hpq.2

theorem Alike.kinds_eq (h : s.Alike s') :
    s.rules.map ElementRule.kind = s'.rules.map ElementRule.kind := by
  rw [← List.forall₂_eq_eq_eq, List.forall₂_map_left_iff, List.forall₂_map_right_iff]
  exact h.rules.imp fun _ _ hr => hr.kind

theorem Alike.attributes_eq (h : s.Alike s') :
    s.rules.map ElementRule.attributes = s'.rules.map ElementRule.attributes := by
  rw [← List.forall₂_eq_eq_eq, List.forall₂_map_left_iff, List.forall₂_map_right_iff]
  exact h.rules.imp fun _ _ hr => hr.attributes

/-- A tag has a rule on both sides or on neither. The rules were put under their tags in
the same order. -/
theorem Alike.rule? (h : s.Alike s') (tag : String) :
    Option.Rel ElementRule.Alike (s.rule? tag) (s'.rule? tag) := by
  have hentries := h.entries
  unfold Schema.rule? OrderedTable.get?
  generalize s.elements.entries = l at hentries ⊢
  generalize s'.elements.entries = l' at hentries ⊢
  induction hentries with
  | nil => exact .none
  | @cons p q l l' hpq _ ih =>
      unfold findPair
      rw [← hpq.1]
      by_cases htag : p.1 = tag
      · rw [if_pos htag, if_pos htag]
        exact .some hpq.2
      · rw [if_neg htag, if_neg htag]
        exact ih

/-- A tie-break put into both schemas **leaves them alike**, as it changes no table. -/
theorem Alike.withTieBreak (h : s.Alike s') (tieBreak : TieBreak) :
    (s.withTieBreak tieBreak).Alike (s'.withTieBreak tieBreak) where
  entries := by
    show List.Forall₂ _ (s.elements.entries.map _) (s'.elements.entries.map _)
    rw [List.forall₂_map_left_iff, List.forall₂_map_right_iff]
    exact h.entries.imp fun _ _ hpq => ⟨hpq.1, hpq.2.withTieBreak tieBreak⟩
  start := h.start

end Schema

/-! ## Walks -/

/-- The inspections are of the same visit, found the same there and agree on whether to
go on below. -/
structure Inspection.Alike (i j : Inspection) : Prop where
  visit : i.visit = j.visit
  violations : List.Forall₂ Violation.Alike i.violations j.violations
  descends : i.descends = j.descends

namespace Scope

variable {s s' : Schema} {mode : ValidationMode} {limits : Limits}

/-- At a visit **the same is found**, and both sides go on below or neither does. Only the
review of the children looks at a content; the rest is equal on both sides. -/
theorem examine_alike (h : s.Alike s') (v : Visit) :
    List.Forall₂ Violation.Alike ((⟨s, mode, limits⟩ : Scope).examine v).1
        ((⟨s', mode, limits⟩ : Scope).examine v).1 ∧
      ((⟨s, mode, limits⟩ : Scope).examine v).2 = ((⟨s', mode, limits⟩ : Scope).examine v).2 := by
  have hrule := h.rule? v.element.tag
  unfold examine
  dsimp only
  by_cases hdeep : limits.documentDepth < v.depth
  · rw [if_pos hdeep, if_pos hdeep]
    exact ⟨Violation.Alike.forall₂_refl _, rfl⟩
  · rw [if_neg hdeep, if_neg hdeep]
    generalize s.rule? v.element.tag = o at hrule ⊢
    generalize s'.rule? v.element.tag = o' at hrule ⊢
    cases hrule with
    | none => exact ⟨Violation.Alike.forall₂_refl _, rfl⟩
    | @some r r' hr =>
        -- attributes are looked up in lists that are equal, children are reviewed
        have hattributes : reviewAttributes r v.element = reviewAttributes r' v.element := by
          unfold reviewAttributes ElementRule.hasAttribute
          rw [hr.attributes]
        refine ⟨List.rel_append ?_ (hr.review _), rfl⟩
        rw [hattributes]
        exact Violation.Alike.forall₂_refl _

/-- An inspection finds the same and **goes on below at the same children**. What lies below
is decided by the tags and the limits, which both sides share. -/
theorem inspect_alike (h : s.Alike s') (v : Visit) :
    ((⟨s, mode, limits⟩ : Scope).inspect v).Alike ((⟨s', mode, limits⟩ : Scope).inspect v) where
  visit := rfl
  violations := by
    unfold inspect
    rw [List.forall₂_map_left_iff, List.forall₂_map_right_iff]
    exact (examine_alike h v).1.imp fun _ _ hv =>
      ⟨hv.kind, hv.message, rfl, rfl, hv.token, hv.index, hv.expected⟩
  descends := (examine_alike h v).2

/-- Schemas that are alike **walk the same visits** and find the same at each:
inspections of one visit agree on where to go on. -/
theorem walk_alike (h : s.Alike s') (level : List Visit) :
    List.Forall₂ Inspection.Alike ((⟨s, mode, limits⟩ : Scope).walk level)
      ((⟨s', mode, limits⟩ : Scope).walk level) :=
  forall₂_walk_of_descends (inspect_alike h) (fun v => (inspect_alike h v).descends) level

end Scope

/-! ## Reports -/

/-- Whatever the mode, the bounds and the tree, both schemas report **the same
violations in the same order**. -/
def Schema.ReportsLike (s s' : Schema) : Prop :=
  ∀ mode limits root,
    List.Forall₂ Violation.Alike ((⟨s, mode, limits⟩ : Validator).validate root)
        ((⟨s', mode, limits⟩ : Validator).validate root) ∧
      List.Forall₂ Violation.Alike ((⟨s, mode, limits⟩ : Validator).validateDocument root)
        ((⟨s', mode, limits⟩ : Validator).validateDocument root)

/-- Walks with schemas that are alike find violations that are alike, one by one and in
the same order. The walks go on below the same elements, and what was recorded before is
the same. -/
theorem Ledger.walk_alike {s s' : Schema} (h : s.Alike s') (l : Ledger) (root : Element) :
    List.Forall₂ Violation.Alike (l.walk s root).violations (l.walk s' root).violations := by
  have hfound : List.Forall₂ Inspection.Alike (l.found s root) (l.found s' root) := by
    unfold Ledger.found
    split
    · exact .nil
    · exact Scope.walk_alike h [Visit.root root]
  rw [l.walk_eq_record, l.walk_eq_record]
  exact List.rel_append (Violation.Alike.forall₂_refl _)
    (List.rel_flatMap hfound fun _ _ hij => hij.violations)

/-- So schemas that are alike **report alike**, whatever the document, the mode and the
bounds. Nothing of a schema but its contents enters into what is reported. -/
theorem Schema.Alike.reportsLike {s s' : Schema} (h : s.Alike s') : s.ReportsLike s' := by
  intro mode limits root
  refine ⟨Ledger.walk_alike h _ root, ?_⟩
  -- whether the root is the start is asked before the walk, and of the start alone
  have hledger : (⟨s, mode, limits⟩ : Validator).ledgerForRoot root.tag
      = (⟨s', mode, limits⟩ : Validator).ledgerForRoot root.tag := by
    unfold Validator.ledgerForRoot Validator.ledger
    rw [h.start]
  unfold Validator.validateDocument
  rw [hledger]
  exact Ledger.walk_alike h _ root

end TreeGrammar
