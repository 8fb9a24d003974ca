/-
What the search for an insertion finds.

Where the search goes through the boundaries of a word, it finds the outermost one at
which the word is accepted with the token put in, or finds that there is none. In an
unconstrained content it does not go through them, but takes the boundary on the side
unseen. That is right as long as the word has only tokens that occur in the content,
since then every boundary will do; it is wrong for every other word, which is rejected
whatever is put into it (`finds_insertion_iff`).
-/
import Mathlib.Data.List.Permutation
import TreeGrammar.Content.Insertion
import TreeGrammar.Proofs.Automaton.Unconstrained
import TreeGrammar.Proofs.Content.Inside

set_option autoImplicit false

namespace TreeGrammar

/-! ## The outermost boundary -/

namespace Side

/-- As seen from the side, the first index lies **no farther** than the second. -/
def le : Side → Nat → Nat → Prop
  | first, i, j => i ≤ j
  | last, i, j => j ≤ i

/-- The answer is what **trying every index** up to a length finds: the outermost that
has the property, or none if none has it. -/
def Finds (side : Side) (length : Nat) (p : Nat → Prop) : Option Nat → Prop
  | some i => i ≤ length ∧ p i ∧ ∀ j ≤ length, p j → side.le i j
  | none => ∀ j ≤ length, ¬ p j

variable {side : Side} {length i j : Nat}

theorem le_refl (side : Side) (i : Nat) : side.le i i := by
  cases side <;> exact Nat.le_refl i

/-- The outermost boundary is one of the list: nothing from the first side, everything
from the last. -/
theorem outermost_le (side : Side) (length : Nat) : side.outermost length ≤ length := by
  cases side with
  | first => exact Nat.zero_le length
  | last => exact Nat.le_refl length

theorem le_outermost (h : j ≤ length) : side.le (side.outermost length) j := by
  cases side with
  | first => exact Nat.zero_le j
  | last => exact h

/-- The boundaries of a list are those up to its length, from whichever side they are
counted. A search from either side looks at all of them. -/
theorem mem_boundaries_iff : i ∈ side.boundaries length ↔ i ≤ length := by
  cases side <;> simp only [boundaries, List.mem_reverse, List.mem_range, Nat.lt_succ_iff]

/-- The boundaries are tried **from the side inwards**. The first that fits is therefore
the outermost that fits. -/
theorem pairwise_boundaries (side : Side) (length : Nat) :
    (side.boundaries length).Pairwise side.le := by
  cases side with
  | first => exact List.pairwise_le_range
  | last => exact List.pairwise_reverse.mpr List.pairwise_le_range

/-- The first boundary that passes a test is **the outermost one** that does: the
boundaries are tried from the side inwards. -/
theorem finds_find? (side : Side) (length : Nat) (p : Nat → Bool) :
    side.Finds length (fun i => p i = true) ((side.boundaries length).find? p) := by
  cases hfind : (side.boundaries length).find? p with
  | none =>
      intro j hj
      exact List.find?_eq_none.mp hfind j (mem_boundaries_iff.mpr hj)
  | some i =>
      obtain ⟨hi, before, after, hsplit, hbefore⟩ := List.find?_eq_some_iff_append.mp hfind
      have horder := hsplit ▸ side.pairwise_boundaries length
      have hmem (j : Nat) : j ≤ length ↔ j ∈ before ++ i :: after := by
        rw [← hsplit, mem_boundaries_iff]
      refine ⟨(hmem i).mpr (by simp), hi, fun j hj hp => ?_⟩
      rcases List.mem_append.mp ((hmem j).mp hj) with hj | hj
      · simpa [hp] using hbefore j hj
      · rcases List.mem_cons.mp hj with rfl | hj
        · exact side.le_refl j
        · exact List.rel_of_pairwise_cons (List.pairwise_append.mp horder).2.1 hj

/-- What is found of one kind of index can be read as found of another, if each index
that has the property on the one side stands for one that has it on the other, and **the
outermost** for the outermost. -/
theorem Finds.map {p q : Nat → Prop} {f : Nat → Nat} {length' : Nat} {answer : Option Nat}
    (h : side.Finds length p answer) (hf : ∀ i ≤ length, p i → f i ≤ length' ∧ q (f i))
    (hq : ∀ j ≤ length', q j → ∃ i ≤ length, p i ∧ ∀ k ≤ length, side.le k i → side.le (f k) j) :
    side.Finds length' q (answer.map f) := by
  cases answer with
  | none =>
      intro j hj hqj
      obtain ⟨i, hi, hpi, -⟩ := hq j hj hqj
      exact h i hi hpi
  | some i =>
      obtain ⟨hi, hpi, hfirst⟩ := h
      refine ⟨(hf i hi hpi).1, (hf i hi hpi).2, fun j hj hqj => ?_⟩
      obtain ⟨k, hk, hpk, hle⟩ := hq j hj hqj
      exact hle i hi (hfirst k hk hpk)

end Side

namespace Expression

variable {e : Expression} {w : List Token} {t x : Token} {side : Side} {i : Nat}

/-! ## Contents that take every word of their tokens -/

/-- An unconstrained content accepts every word of its tokens that is not empty. The
tables have to keep the rules, as those that are compiled do. -/
theorem accepts_of_isUnconstrained (hrules : ∀ a ∈ e.automata, a.problems = [])
    (hfree : e.isUnconstrained = true) (hne : w ≠ []) (hw : ∀ x ∈ w, e.isAllowed x = true) :
    e.accepts w = true := by
  cases e with
  | interleave blocks tieBreak => exact absurd hfree Bool.false_ne_true
  | single a =>
      have hrules : a.WellFormed := a.problems_eq_nil_iff.mp (hrules a (List.mem_singleton_self a))
      rw [accepts_single]
      refine Automaton.accepts_of_isUnconstrained hrules hfree hne fun x hx => ?_
      obtain ⟨b, hb, hx⟩ := isAllowed_iff.mp (hw x hx)
      cases List.mem_singleton.mp hb
      exact hx

/-! ## What the search finds -/

/-- A word with a token put in has its own tokens and that one. -/
theorem mem_insertion_iff : x ∈ w.take i ++ t :: w.drop i ↔ x = t ∨ x ∈ w := by
  have hsplit : x ∈ w ↔ x ∈ w.take i ∨ x ∈ w.drop i := by
    rw [← List.mem_append, List.take_append_drop]
  rw [List.mem_append, List.mem_cons, hsplit]
  exact or_left_comm

/-- A word that is accepted with a token put in has **only tokens that occur** in the
content. A token that does not occur can be put in nowhere, and beside such a token
nothing can. -/
theorem isAllowed_of_acceptsWith (h : e.acceptsWith w t i = true) :
    ∀ x, x = t ∨ x ∈ w → e.isAllowed x = true :=
  fun x hx => isAllowed_of_accepts h x (mem_insertion_iff.mpr hx)

/-- What can be inserted somewhere is allowed: for the shortcut this is checked, and
otherwise a word that is accepted has allowed tokens only. -/
theorem isAllowed_of_insertion? (h : e.insertion? w t side = some i) : e.isAllowed t = true := by
  by_contra ht
  rw [insertion?, if_pos (by simpa using ht)] at h
  cases h

/-- The search finds what trying every boundary finds, if the word has only tokens that
occur in the content or there is **no short way** to an answer. -/
theorem finds_insertion (hrules : ∀ a ∈ e.automata, a.problems = [])
    (hw : e.isUnconstrained = true → e.isAllowed t = true → ∀ x ∈ w, e.isAllowed x = true) :
    side.Finds w.length (fun i => e.acceptsWith w t i = true) (e.insertion? w t side) := by
  unfold insertion?
  by_cases ht : e.isAllowed t = true
  · rw [if_neg (by simp [ht])]
    by_cases hfree : e.isUnconstrained = true
    · rw [if_pos hfree]
      -- with the token put in, the word is not empty and has only tokens of the content,
      -- wherever that is
      have hall (i : Nat) : e.acceptsWith w t i = true := by
        refine accepts_of_isUnconstrained hrules hfree (by simp) fun x hx => ?_
        rcases mem_insertion_iff.mp hx with rfl | hx
        · exact ht
        · exact hw hfree ht x hx
      exact ⟨side.outermost_le w.length, hall _, fun j hj _ => Side.le_outermost hj⟩
    · rw [if_neg hfree]
      exact side.finds_find? w.length (e.acceptsWith w t)
  · rw [if_pos (by simpa using ht)]
    exact fun j _ haccepts => ht (isAllowed_of_acceptsWith haccepts t (.inl rfl))

/-- The search finds what trying every boundary finds **exactly if** no word is answered
for unseen that has a token from elsewhere: where the content is unconstrained and the
token occurs in it, so do all tokens of the word. -/
theorem finds_insertion_iff (hrules : ∀ a ∈ e.automata, a.problems = []) (w : List Token)
    (t : Token) (side : Side) :
    side.Finds w.length (fun i => e.acceptsWith w t i = true) (e.insertion? w t side) ↔
      (e.isUnconstrained = true → e.isAllowed t = true → ∀ x ∈ w, e.isAllowed x = true) := by
  refine ⟨fun hfinds hfree ht x hx => ?_, finds_insertion hrules⟩
  have hfound : e.insertion? w t side = some (side.outermost w.length) := by
    simp [insertion?, ht, hfree]
  rw [hfound] at hfinds
  exact isAllowed_of_acceptsWith hfinds.2.1 x (.inr hx)

end Expression

/-- The table of any number of items. -/
def items : Automaton := (Automaton.kleene 0 (.single (.element "item"))).automaton

theorem problems_items : ∀ a ∈ (Expression.single items).automata, a.problems = [] := by
  intro a ha
  rw [List.mem_singleton.mp ha]
  decide +kernel

/-- Among items, an item can go to the very end. -/
theorem finds_insertion_iff_items :
    let e := Expression.single items
    let w : List Token := [.element "item", .element "item"]
    (∀ a ∈ e.automata, a.problems = []) ∧ e.insertion? w (.element "item") .last = some 2 ∧
      Side.last.Finds 2 (fun i => e.acceptsWith w (.element "item") i = true) (some 2) := by
  intro e w
  have hfound : e.insertion? w (.element "item") .last = some 2 := by cbv
  have hallowed : ∀ x ∈ w, e.isAllowed x = true := by
    have hitem : e.isAllowed (.element "item") = true := by cbv
    simp [w, hitem]
  have hfinds := (Expression.finds_insertion_iff problems_items w (.element "item") .last).mpr
    fun _ _ => hallowed
  rw [hfound] at hfinds
  exact ⟨problems_items, hfound, hfinds⟩

/-- Beside a note, which occurs nowhere in a list of items, an item is said to go in,
and the list **is rejected wherever it goes**. -/
theorem insertion_items_note :
    let e := Expression.single items
    let w : List Token := [.element "note"]
    (∀ a ∈ e.automata, a.problems = []) ∧ e.insertion? w (.element "item") .first = some 0 ∧
      (∀ i ≤ w.length, e.acceptsWith w (.element "item") i = false) ∧
      ¬ Side.first.Finds w.length (fun i => e.acceptsWith w (.element "item") i = true)
        (e.insertion? w (.element "item") .first) := by
  intro e w
  have hfound : e.insertion? w (.element "item") .first = some 0 := by cbv
  have hrejected : ∀ i ≤ w.length, e.acceptsWith w (.element "item") i = false := by decide +kernel
  refine ⟨problems_items, hfound, hrejected, fun hfinds => ?_⟩
  rw [hfound] at hfinds
  have haccepted : e.acceptsWith w (.element "item") 0 = true := hfinds.2.1
  rw [hrejected 0 (Nat.zero_le _)] at haccepted
  exact Bool.false_ne_true haccepted

end TreeGrammar
