/-
Contents that behave alike.

Two tables are alike if they have the same tokens and some relation between their
states, a **bisimulation**, holds of the two `start`s, says the same of where the
content may end, and is kept by every token. Nothing is asked about the names of states,
so a table and a renamed one are alike. The relation is lifted to expressions block by
block, and to cursors state by state; a cursor is moved by a token on one side exactly
when it is on the other, and to a cursor that is abreast of it. In an interleave this
needs the same tie-break on both sides, and no more: what a tie-break sees of a block is
its index and whether its content may end.
-/
import Mathlib.Data.List.Forall2
import TreeGrammar.Proofs.Automaton.Bisimulation
import TreeGrammar.Proofs.Automaton.Reach
import TreeGrammar.Content.Expression

set_option autoImplicit false

namespace TreeGrammar

/-! ## Tables -/

namespace Automaton

/-- The tables have the same tokens, and runs from their two starts cannot be
told apart. -/
structure Alike (a b : Automaton) : Prop where
  tokens : ∀ x, x ∈ a.reachableTokens ↔ x ∈ b.reachableTokens
  start : Bisimilar a b .start .start

variable {a b : Automaton} {s s' : State}

theorem isSome_eq_of_rel {α β : Type} {R : α → β → Prop} {o : Option α} {o' : Option β}
    (h : Option.Rel R o o') : o.isSome = o'.isSome := by
  cases h with
  | none => rfl
  | some _ => rfl

/-- Bisimilar states expect the same tokens, since the tokens that are expected are
those that are taken. The order in which they are listed may differ. -/
theorem Bisimilar.mem_expected_iff (h : Bisimilar a b s s') (x : Token) :
    x ∈ a.expected s ↔ x ∈ b.expected s' := by
  rw [Automaton.mem_expected_iff, Automaton.mem_expected_iff, isSome_eq_of_rel (h.consume x)]

/-- A renamed table is alike. The names of states never show in what a table takes
or expects. -/
theorem Renames.alike {f : State → State} {p : State → Prop} (h : Renames f p a b) : Alike a b where
  tokens x := h.mem_reachableTokens_iff.symm
  start := by
    have hstart := h.carries.bisimilar_apply h.start_mem
    rw [h.apply_start] at hstart
    exact hstart

end Automaton

/-! ## The blocks of an interleave -/

/-- Blocks on both sides and the state reached in each: **each block** of the one side
matches that of the other. -/
inductive Abreast : List Automaton → List Automaton → List State → List State → Prop
  | nil : Abreast [] [] [] []
  | cons {a b : Automaton} {s s' : State} {as bs : List Automaton} {ss ss' : List State}
      (head : Automaton.Bisimilar a b s s') (tail : Abreast as bs ss ss') :
      Abreast (a :: as) (b :: bs) (s :: ss) (s' :: ss')

namespace Abreast

variable {as bs : List Automaton} {ss ss' : List State} {x : Token}

/-- At the beginning blocks that are alike stand abreast. -/
theorem start (h : List.Forall₂ Automaton.Alike as bs) :
    Abreast as bs (as.map fun _ => .start) (bs.map fun _ => .start) := by
  induction h with
  | nil => exact .nil
  | cons hab _ ih => exact .cons hab.start ih

/-- Blocks that stand abreast may all end, or in neither interleave all of them may. The
cursors are compared block by block, with the same block on both sides. -/
theorem all_isFinished_eq (h : Abreast as bs ss ss') :
    ((as.zip ss).all fun p => p.1.isFinished p.2) = (bs.zip ss').all
      fun p => p.1.isFinished p.2 := by
  induction h with
  | nil => rfl
  | cons hhead _ ih =>
      rw [List.zip_cons_cons, List.zip_cons_cons, List.all_cons, List.all_cons, ih,
        hhead.isFinished_eq]

/-- The blocks together expect the same tokens on both sides. It is the list of one
block after the other on both sides. -/
theorem mem_expected_iff (h : Abreast as bs ss ss') :
    (x ∈ (as.zip ss).flatMap fun p => p.1.expected p.2) ↔
      x ∈ (bs.zip ss').flatMap fun p => p.1.expected p.2 := by
  induction h with
  | nil => exact Iff.rfl
  | cons hhead _ ih =>
      rw [List.zip_cons_cons, List.zip_cons_cons, List.flatMap_cons, List.flatMap_cons,
        List.mem_append, List.mem_append, ih, hhead.mem_expected_iff x]

/-- The blocks that could take a token are the same ones on both sides, and whichever of
them takes it, the blocks are abreast again. The index counts from the first block of
the whole interleave, so it is carried along. -/
theorem offers (h : Abreast as bs ss ss') (x : Token) (index : Nat) :
    List.Forall₂ (fun o o' => o.candidate = o'.candidate ∧ index ≤ o.candidate.index ∧
        Abreast as bs (ss.set (o.candidate.index - index) o.target)
          (ss'.set (o'.candidate.index - index) o'.target))
      (TreeGrammar.offers x index as ss) (TreeGrammar.offers x index bs ss') := by
  induction h generalizing index with
  | nil => exact .nil
  | @cons a b s s' as bs ss ss' hhead htail ih =>
      -- an offer of a later block: its place is one further on, and the first block stays
      have hlater := (ih (index + 1)).imp fun o o' h => by
        obtain ⟨hcand, hle, hset⟩ := h
        have hplace : o.candidate.index - index = o.candidate.index - (index + 1) + 1 := by omega
        have hwhole :
            Abreast (a :: as) (b :: bs) ((s :: ss).set (o.candidate.index - index) o.target)
              ((s' :: ss').set (o'.candidate.index - index) o'.target) := by
          rw [← hcand] at hset ⊢
          rw [hplace, List.set_cons_succ, List.set_cons_succ]
          exact .cons hhead hset
        exact (⟨hcand, by omega, hwhole⟩ : o.candidate = o'.candidate ∧ index ≤ o.candidate.index ∧
          Abreast (a :: as) (b :: bs) ((s :: ss).set (o.candidate.index - index) o.target)
            ((s' :: ss').set (o'.candidate.index - index) o'.target))
      have hstep := hhead.consume x
      unfold TreeGrammar.offers
      generalize a.consume s x = c at hstep ⊢
      generalize b.consume s' x = c' at hstep ⊢
      cases hstep with
      | none => exact hlater
      | some hst =>
          refine .cons ⟨?_, Nat.le_refl index, ?_⟩ hlater
          · rw [hhead.isFinished_eq]
          · rw [Nat.sub_self, List.set_cons_zero, List.set_cons_zero]
            exact .cons hst htail

/-- The tie-break is shown the same candidates on both sides. Its choice can therefore
not tell the two sides apart. -/
theorem candidates_eq (h : Abreast as bs ss ss') (x : Token) :
    (TreeGrammar.offers x 0 as ss).map Offer.candidate
      = (TreeGrammar.offers x 0 bs ss').map Offer.candidate := by
  have hoffers := h.offers x 0
  generalize TreeGrammar.offers x 0 as ss = os at hoffers ⊢
  generalize TreeGrammar.offers x 0 bs ss' = os' at hoffers ⊢
  induction hoffers with
  | nil => rfl
  | cons ho _ ih => rw [List.map_cons, List.map_cons, ho.1, ih]

/-- Whichever block is chosen, **it can take the token on both sides or on neither**. By
induction on the blocks, counted from the same number. -/
theorem choose (h : Abreast as bs ss ss') (x : Token) (chosen : Nat) :
    Option.Rel (Abreast as bs)
      (((TreeGrammar.offers x 0 as ss).find? fun o => o.candidate.index == chosen).map fun o =>
        ss.set chosen o.target)
      (((TreeGrammar.offers x 0 bs ss').find? fun o => o.candidate.index == chosen).map fun o =>
        ss'.set chosen o.target) := by
  have hoffers := h.offers x 0
  generalize TreeGrammar.offers x 0 as ss = os at hoffers ⊢
  generalize TreeGrammar.offers x 0 bs ss' = os' at hoffers ⊢
  induction hoffers with
  | nil => exact .none
  | @cons o o' os os' ho _ ih =>
      obtain ⟨hcand, -, hset⟩ := ho
      rw [List.find?_cons, List.find?_cons, ← hcand]
      -- the first offer with the index is the one that is taken
      by_cases hindex : o.candidate.index = chosen
      · rw [← hcand, hindex, Nat.sub_zero] at hset
        rw [hindex, beq_self_eq_true]
        exact .some hset
      · rw [beq_false_of_ne hindex]
        exact ih

end Abreast

/-! ## Expressions -/

namespace Expression

/-- The expressions are of one form, with tables that are alike and the
same tie-break. -/
inductive Alike : Expression → Expression → Prop
  | single {a b : Automaton} (h : a.Alike b) : Alike (single a) (single b)
  | interleave {as bs : List Automaton} (tieBreak : TieBreak)
      (h : List.Forall₂ Automaton.Alike as bs) :
      Alike (interleave as tieBreak) (interleave bs tieBreak)

/-- The cursor `c'` of `e'` can do what the cursor `c` of `e` can do. -/
inductive CursorsAlike : Expression → Expression → Cursor → Cursor → Prop
  | single {a b : Automaton} {s s' : State} (h : Automaton.Bisimilar a b s s') :
      CursorsAlike (single a) (single b) (.single s) (.single s')
  | interleave {as bs : List Automaton} {ss ss' : List State} (tieBreak : TieBreak)
      (h : Abreast as bs ss ss') :
      CursorsAlike (interleave as tieBreak) (interleave bs tieBreak) (.interleaved ss)
        (.interleaved ss')

variable {e e' : Expression} {c c' : Cursor}

/-- Expressions that are alike stay so with any one tie-break for both. -/
theorem Alike.withTieBreak (h : Alike e e') (tieBreak : TieBreak) :
    Alike (e.withTieBreak tieBreak) (e'.withTieBreak tieBreak) := by
  cases h with
  | single h => exact .single h
  | interleave _ h => exact .interleave tieBreak h

/-- The same tokens occur in both. Their blocks have the same tokens one by one. -/
theorem Alike.isAllowed_eq (h : Alike e e') (x : Token) : e.isAllowed x = e'.isAllowed x := by
  have htokens : ∀ {as bs : List Automaton}, List.Forall₂ Automaton.Alike as bs →
      (x ∈ as.flatMap Automaton.reachableTokens ↔ x ∈ bs.flatMap Automaton.reachableTokens) := by
    intro as bs hall
    induction hall with
    | nil => exact Iff.rfl
    | cons hab _ ih =>
        rw [List.flatMap_cons, List.flatMap_cons, List.mem_append, List.mem_append, hab.tokens, ih]
  have hautomata : List.Forall₂ Automaton.Alike e.automata e'.automata := by
    cases h with
    | single h => exact .cons h .nil
    | interleave _ h => exact h
  unfold isAllowed allowedTokens
  rw [decide_eq_decide, List.mem_eraseDups, List.mem_eraseDups]
  exact htokens hautomata

/-- The cursors before the first token are alike. From here every word keeps them so. -/
theorem Alike.initial (h : Alike e e') : CursorsAlike e e' e.initial e'.initial := by
  cases h with
  | single h => exact .single h.start
  | interleave tieBreak h => exact .interleave tieBreak (Abreast.start h)

/-- Cursors that are alike agree on **whether the content may end**. It asks each block
by itself. -/
theorem CursorsAlike.isFinishedAt_eq (h : CursorsAlike e e' c c') :
    e.isFinishedAt c = e'.isFinishedAt c' := by
  cases h with
  | single h => exact h.isFinished_eq
  | interleave _ h => exact h.all_isFinished_eq

theorem CursorsAlike.mem_expectedAt_iff (h : CursorsAlike e e' c c') (x : Token) :
    x ∈ e.expectedAt c ↔ x ∈ e'.expectedAt c' := by
  cases h with
  | single h => exact h.mem_expected_iff x
  | interleave _ h =>
      unfold expectedAt
      rw [List.mem_eraseDups, List.mem_eraseDups]
      exact h.mem_expected_iff

/-- A token is **taken on one side exactly when it is on the other**, and the cursors
match again. From this everything that is read off a run is the same on both sides. -/
theorem CursorsAlike.advance (h : CursorsAlike e e' c c') (x : Token) :
    Option.Rel (CursorsAlike e e') (e.advance c x) (e'.advance c' x) := by
  cases h with
  | @single a b s s' h =>
      have hstep := h.consume x
      unfold Expression.advance
      dsimp only
      generalize a.consume s x = o at hstep ⊢
      generalize b.consume s' x = o' at hstep ⊢
      cases hstep with
      | none => exact .none
      | some hst => exact .some (.single hst)
  | @interleave as bs ss ss' tieBreak h =>
      -- the tie-break sees the same candidates, so it names the same block, or none
      have hcandidates := h.candidates_eq x
      have hchoose := h.choose x
      unfold Expression.advance
      dsimp only
      generalize offers x 0 as ss = os at hcandidates hchoose ⊢
      generalize offers x 0 bs ss' = os' at hcandidates hchoose ⊢
      match os, os', hcandidates with
      | [], [], _ => exact .none
      | o :: os, o' :: os', hcandidates =>
          dsimp only [Option.bind_eq_bind, Option.pure_def]
          rw [hcandidates]
          cases tieBreak x _ with
          | none => exact .none
          | some chosen =>
              have hchosen := hchoose chosen
              rw [Option.bind_some, Option.bind_some]
              generalize (o :: os).find? _ = found at hchosen ⊢
              generalize (o' :: os').find? _ = found' at hchosen ⊢
              match found, found', hchosen with
              | none, none, _ => exact .none
              | some _, some _, .some hset => exact .some (.interleave tieBreak hset)

end Expression

end TreeGrammar
