/-
What a review says about the children.

A review goes through slots and never stops at a rejected one. Here the reading without
complaint is a relation: each token is taken, or it is blank text that is not taken and
counts for nothing. A review names no child exactly if such a reading exists, and it has
no violation at all exactly if the content may end where the reading ends.
-/
import TreeGrammar.Validation.Review

set_option autoImplicit false

namespace TreeGrammar

/-! ## Reading slots -/

/-- Slots are **read** from one cursor to another: each token is taken, and blank text
that is not is passed over. -/
inductive Expression.Reads (e : Expression) : Cursor → List Slot → Cursor → Prop
  | nil (c : Cursor) : Reads e c [] c
  | taken {c next last : Cursor} {slot : Slot} {rest : List Slot}
      (h : e.advance c slot.token = some next) (hrest : Reads e next rest last) :
      Reads e c (slot :: rest) last
  | passed {c last : Cursor} {slot : Slot} {rest : List Slot} (h : e.advance c slot.token = none)
      (hblank : slot.blank = true) (hrest : Reads e c rest last) : Reads e c (slot :: rest) last

/-- Slots can be read from a cursor. -/
def Expression.CanRead (e : Expression) (c : Cursor) (slots : List Slot) : Prop :=
  ∃ last, e.Reads c slots last

namespace Expression

variable {e : Expression} {c next : Cursor} {slot : Slot} {rest : List Slot}

theorem canRead_nil : e.CanRead c [] := ⟨c, .nil c⟩

/-- A token that can be taken is taken: reading has no choice, so a reading of the whole
is one of the rest from the next cursor. -/
theorem reads_cons_of_some (h : e.advance c slot.token = some next) {last : Cursor} :
    e.Reads c (slot :: rest) last ↔ e.Reads next rest last := by
  refine ⟨fun hread => ?_, .taken h⟩
  cases hread with
  | taken h' hrest =>
      rw [h] at h'
      cases h'
      exact hrest
  | passed h' _ _ =>
      rw [h] at h'
      cases h'

/-- A token that cannot be taken is passed over if it is blank text, **and else stops
the reading**. -/
theorem reads_cons_of_none (h : e.advance c slot.token = none) {last : Cursor} :
    e.Reads c (slot :: rest) last ↔ slot.blank = true ∧ e.Reads c rest last := by
  refine ⟨fun hread => ?_, fun hread => .passed h hread.1 hread.2⟩
  cases hread with
  | taken h' _ =>
      rw [h] at h'
      cases h'
  | passed _ hblank hrest => exact ⟨hblank, hrest⟩

theorem canRead_cons_of_some (h : e.advance c slot.token = some next) :
    e.CanRead c (slot :: rest) ↔ e.CanRead next rest := by
  unfold CanRead
  simp only [reads_cons_of_some h]

theorem canRead_cons_of_none (h : e.advance c slot.token = none) :
    e.CanRead c (slot :: rest) ↔ slot.blank = true ∧ e.CanRead c rest := by
  unfold CanRead
  simp only [reads_cons_of_none h, exists_and_left]

end Expression

/-! ## The violations of a review -/

/-- Whether a violation of the kind is about the children of an element. -/
def ViolationKind.isOfContent (k : ViolationKind) : Bool := k.isStructural || k == .incomplete

namespace ElementRule

variable {r : ElementRule} {p : Progress} {slot : Slot} {rest : List Slot} {v : Violation}

/-- A review goes on behind a token that is taken, with the progress that has taken it.
Three lemmas of this kind say all that a review does with one slot. -/
theorem reviewFrom_cons_of_some {next : Cursor}
    (h : r.content.advance p.cursor slot.token = some next) :
    r.reviewFrom p (slot :: rest) = r.reviewFrom
      { p with cursor := next, trace := p.trace ++ [slot.token],
               offered := p.offered + 1 } rest := by
  simp only [reviewFrom, Expression.offer, h]

/-- Blank text that is not taken leaves no trace at all in the progress. -/
theorem reviewFrom_cons_of_blank (h : r.content.advance p.cursor slot.token = none)
    (hblank : slot.blank = true) : r.reviewFrom p (slot :: rest) = r.reviewFrom p rest := by
  simp only [reviewFrom, Expression.offer, h, hblank, if_true]

/-- Anything else that is not taken is a violation at its slot, and **the review goes on
from the same cursor**. -/
theorem reviewFrom_cons_of_none (h : r.content.advance p.cursor slot.token = none)
    (hblank : slot.blank = false) :
    r.reviewFrom p (slot :: rest) = r.locate slot (r.content.rejection p slot.token) :: r.reviewFrom
      { p with
        offered := p.offered + 1
        errors := p.errors ++ [r.content.rejection p slot.token] } rest := by
  simp only [reviewFrom, Expression.offer, h, hblank, Bool.false_eq_true, if_false]

/-- A rejection is always about the structure of the children, be the token out of place
or not allowed anywhere. -/
theorem isStructural_rejection (e : Expression) (p : Progress) (t : Token) :
    (e.rejection p t).kind.isStructural = true := by
  unfold Expression.rejection Violation.unexpectedChild
  by_cases h : e.isAllowed t = true <;> simp [h, ViolationKind.isStructural]

/-- The one thing that can be said of an ending: the content is incomplete. Its place is
written into it later, when it is recorded. -/
theorem mem_ending (h : v ∈ (r.ending p).toList) :
    v.kind = .incomplete ∧ v.element = some r.tag ∧ v.path = none := by
  unfold ending Expression.finish at h
  by_cases hfinished : r.content.isFinished p = true
  · simp [hfinished] at h
  · simp only [hfinished, Bool.false_eq_true, if_false, Option.map_some, Option.toList_some,
      List.mem_singleton] at h
    rw [h]
    exact ⟨rfl, rfl, rfl⟩

/-- The ending has nothing to say exactly where the content may end. -/
theorem ending_eq_none_iff : r.ending p = none ↔ r.content.isFinishedAt p.cursor = true := by
  unfold ending Expression.finish Expression.isFinished
  by_cases hfinished : r.content.isFinishedAt p.cursor = true <;> simp [hfinished]

/-- **What a review can say**: a child is rejected, with the slot it stands in,
or the content is incomplete. In any case the violation has the element's tag,
and no path yet. -/
theorem mem_reviewFrom {slots : List Slot} (h : v ∈ r.reviewFrom p slots) :
    (v.element = some r.tag ∧ v.path = none) ∧
      ((v.kind.isStructural = true ∧ ∃ slot ∈ slots, v.index = some slot.index ∧
        v.token = some slot.token) ∨ v.kind = .incomplete) := by
  induction slots generalizing p with
  | nil =>
      obtain ⟨hkind, hplace⟩ := mem_ending h
      exact ⟨hplace, .inr hkind⟩
  | cons slot rest ih =>
      -- whatever is said about the slots that follow is said about the whole
      have later {q : Progress} (h : v ∈ r.reviewFrom q rest) :
          (v.element = some r.tag ∧ v.path = none) ∧
          ((v.kind.isStructural = true ∧ ∃ other ∈ slot :: rest,
              v.index = some other.index ∧ v.token = some other.token) ∨ v.kind = .incomplete) := by
        obtain ⟨hplace, hsays⟩ := ih h
        refine ⟨hplace, hsays.imp_left ?_⟩
        rintro ⟨hkind, other, hmem, hother⟩
        exact ⟨hkind, other, List.mem_cons_of_mem slot hmem, hother⟩
      cases hadvance : r.content.advance p.cursor slot.token with
      | some next =>
          rw [reviewFrom_cons_of_some hadvance] at h
          exact later h
      | none =>
          by_cases hblank : slot.blank = true
          · rw [reviewFrom_cons_of_blank hadvance hblank] at h
            exact later h
          · rw [reviewFrom_cons_of_none hadvance (by simpa using hblank)] at h
            rcases List.mem_cons.mp h with rfl | h
            · exact ⟨⟨rfl, rfl⟩,
                .inl ⟨isStructural_rejection _ p _, slot, List.mem_cons_self, rfl, rfl⟩⟩
            · exact later h

/-- Whatever a review finds is about the children, and so not about undeclared names.
Kinds of violations can therefore be told by where they come from. -/
theorem isOfContent_of_mem_review {children : List Node} (h : v ∈ r.review children) :
    v.kind.isOfContent = true := by
  unfold ViolationKind.isOfContent
  rcases (mem_reviewFrom h).2 with ⟨hkind, -⟩ | hkind
  · rw [hkind, Bool.true_or]
  · rw [hkind]
    rfl

/-! ## Reviews without violations -/

/-- A review **names no child** exactly if the slots can be read. By induction on the
slots; a token that cannot be taken stops the reading, and is named. -/
theorem reviewFrom_unstructural_iff {slots : List Slot} :
    (∀ v ∈ r.reviewFrom p slots, v.kind.isStructural = false) ↔
      r.content.CanRead p.cursor slots := by
  induction slots generalizing p with
  | nil =>
      refine iff_of_true (fun v hv => ?_) Expression.canRead_nil
      rw [(mem_ending hv).1]
      rfl
  | cons slot rest ih =>
      -- only a token that is neither taken nor passed over is named, and only there the
      -- reading stops
      cases hadvance : r.content.advance p.cursor slot.token with
      | some next =>
          rw [reviewFrom_cons_of_some hadvance, ih, Expression.canRead_cons_of_some hadvance]
      | none =>
          rw [Expression.canRead_cons_of_none hadvance]
          by_cases hblank : slot.blank = true
          · rw [reviewFrom_cons_of_blank hadvance hblank, ih, and_iff_right hblank]
          · rw [reviewFrom_cons_of_none hadvance (by simpa using hblank)]
            refine iff_of_false (fun hall => ?_) fun hread => hblank hread.1
            have hnamed := isStructural_rejection r.content p slot.token
            have hclear := hall _ List.mem_cons_self
            rw [locate, hnamed] at hclear
            cases hclear

/-- A review is **without violations** exactly if the slots can be read to a place where
the content may end. -/
theorem reviewFrom_eq_nil_iff {slots : List Slot} :
    r.reviewFrom p slots = [] ↔
      ∃ last, r.content.Reads p.cursor slots last ∧ r.content.isFinishedAt last = true := by
  induction slots generalizing p with
  | nil =>
      rw [reviewFrom, Option.toList_eq_nil_iff, ending_eq_none_iff]
      refine ⟨fun hfinished => ⟨p.cursor, .nil p.cursor, hfinished⟩, ?_⟩
      rintro ⟨last, hread, hfinished⟩
      cases hread
      exact hfinished
  | cons slot rest ih =>
      cases hadvance : r.content.advance p.cursor slot.token with
      | some next =>
          rw [reviewFrom_cons_of_some hadvance, ih]
          simp only [Expression.reads_cons_of_some hadvance]
      | none =>
          simp only [Expression.reads_cons_of_none hadvance]
          by_cases hblank : slot.blank = true
          · rw [reviewFrom_cons_of_blank hadvance hblank, ih]
            simp only [hblank, true_and]
          · rw [reviewFrom_cons_of_none hadvance (by simpa using hblank)]
            simp [hblank]

/-- A review of children names none of them exactly if **they can be read** from the
beginning, blank text passed over. -/
theorem review_unstructural_iff {children : List Node} :
    (∀ v ∈ r.review children, v.kind.isStructural = false) ↔
      r.content.CanRead r.content.initial (Slot.ofNodes children) :=
  reviewFrom_unstructural_iff

/-- It finds nothing exactly if they can be read to a place where the content may end.
This is what the verdict on whole documents rests on. -/
theorem review_eq_nil_iff {children : List Node} :
    r.review children = [] ↔ ∃ last, r.content.Reads r.content.initial
      (Slot.ofNodes children) last ∧ r.content.isFinishedAt last = true :=
  reviewFrom_eq_nil_iff

end ElementRule

end TreeGrammar
