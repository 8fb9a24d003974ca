/-
Blank text that a validator passes over, and the search for a place.

A validator passes over blank text wherever the content rejects it. The search for a
place leaves blank text out only where the content takes no text at all; where it takes
text somewhere, a blank run is a token like any other. So what the search asks of a
child list is what a review asks and, in a content with text, that it passes over
nothing (`accepts_keptTokens_iff`). Where an element can go in, with no violation and
with nothing passed over in a content with text, the search finds a place
(`isSome_insertion?_of_review_eq_nil`); where it can only go in because layout is passed
over, the search may find none (`insertion?_verse`).
-/
import TreeGrammar.Proofs.Schema.Insertion

set_option autoImplicit false

namespace TreeGrammar

/-! ## What is passed over -/

namespace Expression

/-- The slots that a reading **passes over**: those whose token the content rejects. -/
def passed (e : Expression) (c : Cursor) : List Slot → List Slot
  | [] => []
  | slot :: rest =>
      match e.advance c slot.token with
      | some next => e.passed next rest
      | none => slot :: e.passed c rest

variable {e : Expression} {c next last : Cursor} {slot : Slot} {slots rest : List Slot}

theorem passed_cons_of_some (h : e.advance c slot.token = some next) :
    e.passed c (slot :: rest) = e.passed next rest := by
  simp only [passed, h]

/-- A slot whose token is not taken is passed over. -/
theorem passed_cons_of_none (h : e.advance c slot.token = none) :
    e.passed c (slot :: rest) = slot :: e.passed c rest := by
  simp only [passed, h]

/-- The tokens of slots are all taken exactly if the slots are read **with none passed
over**. Reading differs from running a word by what it may pass over. -/
theorem run_eq_some_iff :
    e.run c (slots.map Slot.token) = some last ↔ e.Reads c slots last ∧ e.passed c slots = [] := by
  induction slots generalizing c with
  | nil =>
      constructor
      · intro h
        cases h
        exact ⟨.nil _, rfl⟩
      · rintro ⟨h, -⟩
        cases h
        rfl
  | cons slot rest ih =>
      rw [List.map_cons, run_cons_eq_some_iff]
      cases hadvance : e.advance c slot.token with
      | some next =>
          rw [reads_cons_of_some hadvance, passed_cons_of_some hadvance, ← ih]
          simp
      | none =>
          rw [passed_cons_of_none hadvance]
          simp

end Expression

namespace ElementRule

open Slot

variable {r : ElementRule} {c last : Cursor} {slots : List Slot}
  {children inner : List Node} {tag : String} {attributes : Attributes} {i : Nat}

/-- The slots of children that a review passes over. -/
def passedOver (r : ElementRule) (children : List Node) : List Slot :=
  r.content.passed r.content.initial (ofNodes children)

/-! ## Reviews and kept tokens -/

/-- In a content without text, what is passed over is **what is not kept**. Text is then
never taken, so whether a slot is kept does not depend on where the reading stands. -/
theorem run_filter_keeps_iff (h : r.content.Inside c) (hnotext : r.content.isTextAllowed = false)
    (htext : ∀ slot ∈ slots, slot.blank = true → slot.token = .text) :
    r.content.run c ((slots.filter r.keeps).map token) = some last ↔
      r.content.Reads c slots last := by
  refine ⟨h.reads_of_run htext, fun hreads => ?_⟩
  induction hreads with
  | nil c => rfl
  | @taken c next last slot rest hadvance _ ih =>
      obtain ⟨hslot, hrest⟩ := List.forall_mem_cons.mp htext
      obtain ⟨hnext, hallowed⟩ := h.advance hadvance
      -- what is taken occurs in the content, so it is not text, and not blank
      have hkept : r.keeps slot = true := by
        unfold keeps
        cases hblank : slot.blank with
        | false => simp
        | true =>
            rw [hslot hblank] at hallowed
            rw [Expression.isTextAllowed, hallowed] at hnotext
            cases hnotext
      rw [List.filter_cons_of_pos hkept, List.map_cons, Expression.run_cons_eq_some_iff]
      exact ⟨next, hadvance, ih hnext hrest⟩
  | @passed c last slot rest hadvance hblank _ ih =>
      obtain ⟨-, hrest⟩ := List.forall_mem_cons.mp htext
      have hdropped : ¬ r.keeps slot = true := by simp [keeps, hnotext, hblank]
      rw [List.filter_cons_of_neg hdropped]
      exact ih h hrest

/-- **What the search asks of children** is what a review asks of them, and, in a
content with text, that nothing is passed over. -/
theorem accepts_keptTokens_iff :
    r.content.accepts (r.keptTokens children) = true ↔
      r.review children = [] ∧ (r.content.isTextAllowed = true → r.passedOver children = []) := by
  rw [review_eq_nil_iff, Expression.accepts_iff]
  cases hallowed : r.content.isTextAllowed with
  | true =>
      rw [keptTokens, r.keptSlots_of_isTextAllowed hallowed]
      simp only [Expression.run_eq_some_iff, forall_const, passedOver]
      constructor
      · rintro ⟨last, ⟨hreads, hpassed⟩, hfinished⟩
        exact ⟨⟨last, hreads, hfinished⟩, hpassed⟩
      · rintro ⟨⟨last, hreads, hfinished⟩, hpassed⟩
        exact ⟨last, ⟨hreads, hpassed⟩, hfinished⟩
  | false =>
      have hreads (last : Cursor) :
          r.content.run r.content.initial (r.keptTokens children) = some last ↔
            r.content.Reads r.content.initial (ofNodes children) last :=
        run_filter_keeps_iff r.content.inside_initial hallowed
          fun _ hslot => token_of_mem_ofNodes hslot
      simp only [hreads, Bool.false_eq_true, false_implies, and_true]

/-! ## The search and the validator -/

/-- If there is a boundary to be found, **the search finds one**; the short way only
finds more. The short way answers without looking at the children. -/
theorem isSome_insertion?_of_acceptsWith {w : List Token} {x : Token} {boundary : Nat}
    {e : Expression} {side : Side} (hboundary : boundary ≤ w.length)
    (h : e.acceptsWith w x boundary = true) : (e.insertion? w x side).isSome = true := by
  have hallowed : e.isAllowed x = true := Expression.isAllowed_of_acceptsWith h x (.inl rfl)
  unfold Expression.insertion?
  rw [if_neg (by simp [hallowed])]
  split
  · rfl
  · rw [List.find?_isSome]
    exact ⟨boundary, Side.mem_boundaries_iff.mpr hboundary, h⟩

/-- **The search finds a place** where a validator has nothing to say: if at some index
inside no run of text an element can be put in without a violation, and, in a content
with text, without blank text being passed over, then from each side a place is found
for it. -/
theorem isSome_insertion?_of_review_eq_nil (htag : tag ≠ Token.textName) (hi : i ≤ children.length)
    (hbeside : ∀ slot ∈ ofNodes children, slot.last < i ∨ i ≤ slot.index)
    (hreview : r.review (children.insertIdx i (.element tag attributes inner)) = [])
    (hpassed : r.content.isTextAllowed = true →
      r.passedOver (children.insertIdx i (.element tag attributes inner)) = []) (side : Side) :
    (r.insertion? children tag side).isSome = true := by
  have huncut : r.CutsNoRun children i :=
    fun slot hslot => hbeside slot (List.mem_filter.mp hslot).1
  obtain ⟨boundary, hboundary, -, haccepts⟩ :=
    (accepts_insert_element_iff hi).mp ⟨huncut, accepts_keptTokens_iff.mpr ⟨hreview, hpassed⟩⟩
  have hlength : boundary ≤ (r.keptTokens children).length := by
    unfold keptTokens
    rwa [List.length_map]
  rw [insertion?, Token.ofName, if_neg htag, Option.isSome_map]
  exact isSome_insertion?_of_acceptsWith hlength haccepts

/-- The rule for a verse: a number, perhaps text, and a note. -/
def verse : ElementRule where
  tag := "verse"
  kind := .element
  attributes := []
  content := .single (Automaton.append 1
    (Automaton.append 0 (.single (.element "number"))
      (Automaton.optional (.single .text))).automaton
    (.single (.element "note"))).automaton

theorem accepts_verse : verse.content.accepts [.element "number", .text, .element "note"] = true :=
  rfl

theorem isTextAllowed_verse : verse.content.isTextAllowed = true :=
  Expression.isAllowed_of_accepts accepts_verse .text (by simp)

/-- A verse begins with its number, so it does **not take every word** of its tokens. -/
theorem isUnconstrained_verse : verse.content.isUnconstrained = false := by
  rw [Bool.eq_false_iff]
  intro hfree
  have hallowed := Expression.isAllowed_of_accepts accepts_verse (.element "note") (by simp)
  obtain ⟨a, ha, hnote⟩ := Expression.isAllowed_iff.mp hallowed
  rw [List.mem_singleton.mp ha] at hnote
  obtain ⟨-, hvisits⟩ := Automaton.isUnconstrained_iff.mp hfree
  exact absurd ((hvisits .start (Automaton.visits_start _)).2 (.element "note") hnote) (by decide)

/-- Layout before the note is taken as the text, so a place is found for the number. -/
theorem isSome_insertion?_verse :
    let children : List Node := [.text "\n", .element "note" .empty []]
    let inserted := children.insertIdx 0 (.element "number" .empty [])
    ("number" ≠ Token.textName ∧ (∀ slot ∈ ofNodes children, slot.last < 0 ∨ 0 ≤ slot.index) ∧
        verse.review inserted = [] ∧ verse.content.isTextAllowed = true ∧
        verse.passedOver inserted = []) ∧
      (verse.insertion? children "number" .first).isSome = true := by
  intro children inserted
  have htag : "number" ≠ Token.textName := by decide
  have hbeside : ∀ slot ∈ ofNodes children, slot.last < 0 ∨ 0 ≤ slot.index :=
    fun _ _ => .inr (Nat.zero_le _)
  have hreview : verse.review inserted = [] := rfl
  have hpassed : verse.passedOver inserted = [] := rfl
  exact ⟨⟨htag, hbeside, hreview, isTextAllowed_verse, hpassed⟩,
    isSome_insertion?_of_review_eq_nil htag (Nat.zero_le _) hbeside hreview
      (fun _ => hpassed) .first⟩

/-- Behind the note layout is passed over by a review, and counts as text in the search:
the number can go in without a violation, and **no place is found** for it. -/
theorem insertion?_verse :
    let children : List Node := [.element "note" .empty [], .text "\n"]
    let inserted := children.insertIdx 0 (.element "number" .empty [])
    (∀ a ∈ verse.content.automata, a.problems = []) ∧ 0 ≤ children.length ∧
      (∀ slot ∈ ofNodes children, slot.last < 0 ∨ 0 ≤ slot.index) ∧ verse.review inserted = [] ∧
      (verse.passedOver inserted).map token = [.text] ∧
      verse.insertion? children "number" .first = none ∧
      verse.insertion? children "number" .last = none := by
  intro children inserted
  have hrules : ∀ a ∈ verse.content.automata, a.problems = [] := by
    intro a ha
    rw [List.mem_singleton.mp ha]
    rfl
  have hreview : verse.review inserted = [] := rfl
  have hpassed : (verse.passedOver inserted).map token = [.text] := rfl
  -- the layout is kept as a token, and with it the number can be put in at no boundary
  have hnowhere : ∀ side, verse.insertion? children "number" side = none := by
    intro side
    have hrejected : (side.boundaries 2).find?
        (verse.content.acceptsWith [.element "note", .text] (.element "number")) = none := by
      cases side <;> rfl
    rw [insertion?, Option.map_eq_none_iff, keptSlots_of_isTextAllowed isTextAllowed_verse,
      Expression.insertion?, isUnconstrained_verse]
    split
    · rfl
    · exact hrejected
  exact ⟨hrules, Nat.zero_le _, fun _ _ => .inr (Nat.zero_le _), hreview, hpassed, hnowhere .first,
    hnowhere .last⟩

end ElementRule

end TreeGrammar
