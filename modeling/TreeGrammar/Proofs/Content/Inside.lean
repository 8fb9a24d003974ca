/-
Where a cursor can stand.

In an interleave a token moves one block and leaves all others where they are; which
block that is, the tie-break says, but whatever it says, `Moves` is all that can happen.
So a cursor that has come from the beginning stands in each block at a state that edges
lead to, and it is moved only by tokens that occur in the content. This holds for every
content, whether or not its tables keep the rules.
-/
import TreeGrammar.Content.Expression
import TreeGrammar.Proofs.Automaton.Reach

set_option autoImplicit false

namespace TreeGrammar

/-! ## One step of an interleave -/

/-- The token **moves one block** of an interleave: that block takes it, and every other
block stays. -/
inductive Moves (x : Token) : List Automaton → List State → List State → Prop
  | here {a : Automaton} {s t : State} {as : List Automaton} {ss : List State}
      (h : a.consume s x = some t) : Moves x (a :: as) (s :: ss) (t :: ss)
  | there {a : Automaton} {s : State} {as : List Automaton} {ss ss' : List State}
      (h : Moves x as ss ss') : Moves x (a :: as) (s :: ss) (s :: ss')

section Moves

variable {x : Token} {as : List Automaton} {ss ss' : List State}

/-- Whichever block has an offer, going along with it moves that block. The index counts
from the first block of the whole interleave. -/
theorem moves_of_mem_offers {index : Nat} {o : Offer} (h : o ∈ offers x index as ss) :
    index ≤ o.candidate.index ∧ Moves x as ss (ss.set (o.candidate.index - index) o.target) := by
  fun_induction offers x index as ss with
  | case1 index a as s ss hnone ih =>
      obtain ⟨hle, hmoves⟩ := ih h
      have hplace : o.candidate.index - index = o.candidate.index - (index + 1) + 1 := by omega
      rw [hplace, List.set_cons_succ]
      exact ⟨by omega, .there hmoves⟩
  | case2 index a as s ss t hsome ih =>
      rcases List.mem_cons.mp h with rfl | h
      · rw [Nat.sub_self, List.set_cons_zero]
        exact ⟨Nat.le_refl index, .here hsome⟩
      · obtain ⟨hle, hmoves⟩ := ih h
        have hplace : o.candidate.index - index = o.candidate.index - (index + 1) + 1 := by omega
        rw [hplace, List.set_cons_succ]
        exact ⟨by omega, .there hmoves⟩
  | case3 => exact absurd h List.not_mem_nil

/-- A token that moves a block occurs in it, and the blocks stay at reached states. The
other blocks stay where they are. -/
theorem Moves.reaches (h : Moves x as ss ss') (hss : List.Forall₂ Automaton.Reaches as ss) :
    List.Forall₂ Automaton.Reaches as ss' ∧ ∃ a ∈ as, x ∈ a.reachableTokens := by
  induction h with
  | here hconsume =>
      obtain ⟨hs, hrest⟩ := List.forall₂_cons.mp hss
      obtain ⟨ht, hx⟩ := hs.consume hconsume
      exact ⟨.cons ht hrest, _, List.mem_cons_self, hx⟩
  | there _ ih =>
      obtain ⟨hs, hrest⟩ := List.forall₂_cons.mp hss
      obtain ⟨hmoved, a, ha, hx⟩ := ih hrest
      exact ⟨.cons hs hmoved, a, List.mem_cons_of_mem _ ha, hx⟩

end Moves

namespace Expression

variable {e : Expression} {c c' : Cursor} {x : Token} {u w : List Token}

/-- Whatever the tie-break says, a token that an interleave takes **moves one block**. A
tie-break that names no candidate means that the token is not taken at all. -/
theorem moves_of_advance {blocks : List Automaton} {tieBreak : TieBreak}
    (h : (interleave blocks tieBreak).advance c x = some c') :
    ∃ ss ss', c = .interleaved ss ∧ c' = .interleaved ss' ∧ Moves x blocks ss ss' := by
  cases c with
  | single s => simp [advance] at h
  | interleaved ss =>
      unfold advance at h
      dsimp only at h
      split at h
      · simp at h
      · obtain ⟨chosen, -, h⟩ := Option.bind_eq_some_iff.mp h
        obtain ⟨o, ho, h⟩ := Option.bind_eq_some_iff.mp h
        obtain ⟨-, hmoves⟩ := moves_of_mem_offers (List.mem_of_find?_eq_some ho)
        have hindex : o.candidate.index = chosen := by simpa using List.find?_some ho
        rw [Nat.sub_zero, hindex] at hmoves
        exact ⟨ss, _, rfl, (Option.some.inj h).symm, hmoves⟩

/-! ## Words -/

theorem run_append (e : Expression) (c : Cursor) (u w : List Token) :
    e.run c (u ++ w) = (e.run c u).bind fun next => e.run next w := by
  induction u generalizing c with
  | nil => rfl
  | cons x u ih =>
      rw [List.cons_append, run, run]
      cases e.advance c x with
      | none => rfl
      | some next => exact ih next

/-- A run over a word advances by its first token and goes on from there. -/
theorem run_cons_eq_some_iff :
    e.run c (x :: w) = some c' ↔ ∃ next, e.advance c x = some next ∧ e.run next w = some c' := by
  rw [run]
  cases e.advance c x with
  | none => simp
  | some next => simp

/-- A word is accepted if a run over it comes to a cursor where the content may end. -/
theorem accepts_iff : e.accepts w = true ↔ ∃ c, e.run e.initial w = some c ∧
    e.isFinishedAt c = true := by
  unfold accepts
  cases e.run e.initial w with
  | none => simp
  | some c => simp

/-- Regular content is run as its table is; the cursor only wraps the state. -/
theorem run_single (a : Automaton) (s : State) (w : List Token) :
    (single a).run (.single s) w = (a.run s w).map .single := by
  induction w generalizing s with
  | nil => rfl
  | cons x w ih =>
      rw [run, advance, Automaton.run]
      cases a.consume s x with
      | none => rfl
      | some t => exact ih t

theorem accepts_single (a : Automaton) (w : List Token) : (single a).accepts w = a.accepts w := by
  unfold accepts Automaton.accepts
  rw [initial, run_single]
  cases a.run .start w with
  | none => rfl
  | some s => rfl

/-! ## Cursors inside a content -/

/-- A token is allowed if **any of the tables** has it. For regular content there is one
table, for an interleave one for each block. -/
theorem isAllowed_iff : e.isAllowed x = true ↔ ∃ a ∈ e.automata, x ∈ a.reachableTokens := by
  unfold isAllowed allowedTokens
  rw [decide_eq_true_iff, List.mem_eraseDups, List.mem_flatMap]

/-- The cursor stands **inside** the content: in each block at a state that edges lead
to from `start`. -/
inductive Inside : Expression → Cursor → Prop
  | single {a : Automaton} {s : State} (h : a.Reaches s) : Inside (single a) (.single s)
  | interleave {blocks : List Automaton} {ss : List State} (tieBreak : TieBreak)
      (h : List.Forall₂ Automaton.Reaches blocks ss) :
      Inside (interleave blocks tieBreak) (.interleaved ss)

/-- The first cursor lies inside the content: every block is at its `start`, which
is reached. -/
theorem inside_initial (e : Expression) : e.Inside e.initial := by
  cases e with
  | single a => exact .single a.reaches_start
  | interleave blocks tieBreak =>
      refine .interleave tieBreak ?_
      rw [List.forall₂_map_right_iff, List.forall₂_same]
      exact fun a _ => a.reaches_start

/-- A token that is taken inside a content **occurs in it**, and the cursor stays
inside. Whatever is offered to a cursor, it never leaves the content; by induction this
holds of all runs. -/
theorem Inside.advance (h : e.Inside c) (hx : e.advance c x = some c') :
    e.Inside c' ∧ e.isAllowed x = true := by
  rw [isAllowed_iff]
  cases h with
  | @single a s hs =>
      obtain ⟨t, ht, rfl⟩ := Option.map_eq_some_iff.mp hx
      obtain ⟨hreached, htoken⟩ := hs.consume ht
      exact ⟨.single hreached, a, List.mem_singleton_self a, htoken⟩
  | interleave tieBreak hss =>
      obtain ⟨ss, ss', hc, rfl, hmoves⟩ := moves_of_advance hx
      cases hc
      obtain ⟨hreached, hblock⟩ := hmoves.reaches hss
      exact ⟨.interleave tieBreak hreached, hblock⟩

/-- A token that does not occur in the content is rejected wherever a cursor stands. A
place inside the content has edges for tokens of the tables only. -/
theorem Inside.advance_eq_none (h : e.Inside c) (hx : e.isAllowed x = false) :
    e.advance c x = none := by
  cases hadvance : e.advance c x with
  | none => rfl
  | some c' =>
      rw [(h.advance hadvance).2] at hx
      cases hx

/-- A run from inside the content **stays inside**, and takes allowed tokens only. By
induction on the word, one step of the content at a time. -/
theorem Inside.run (h : e.Inside c) (hrun : e.run c w = some c') :
    e.Inside c' ∧ ∀ x ∈ w, e.isAllowed x = true := by
  induction w generalizing c with
  | nil =>
      cases hrun
      exact ⟨h, fun _ hx => absurd hx List.not_mem_nil⟩
  | cons x w ih =>
      obtain ⟨next, hx, hrest⟩ := run_cons_eq_some_iff.mp hrun
      obtain ⟨hnext, hallowed⟩ := h.advance hx
      obtain ⟨hc', hall⟩ := ih hnext hrest
      exact ⟨hc', List.forall_mem_cons.mpr ⟨hallowed, hall⟩⟩

/-- The tokens of an accepted word **occur in the content**. The run begins inside the
content and stays there. -/
theorem isAllowed_of_accepts (h : e.accepts w = true) : ∀ x ∈ w, e.isAllowed x = true := by
  obtain ⟨c, hrun, -⟩ := accepts_iff.mp h
  exact (e.inside_initial.run hrun).2

end Expression

end TreeGrammar
