/-
Contents that are renamings of each other.

One renaming is applied to all tables of a content. If each table is a renaming of one
of the other content, and no two tables of one content share a number, then there is one
renaming for all of them (`Recodes.exists_rename`). Contents of which that holds behave
alike, so what is inferred from the tokens of a content is the same for both.
-/
import TreeGrammar.Proofs.Automaton.Beyond
import TreeGrammar.Proofs.Automaton.Recoding
import TreeGrammar.Proofs.Content.Alike
import TreeGrammar.Schema.Basic

set_option autoImplicit false

namespace TreeGrammar

/-! ## Tables side by side -/

namespace Automaton

/-- The tables use numbers **from `n` on up to `m`**, each its own ones. -/
structure NumberedBetween (n m : Nat) (as : List Automaton) : Prop where
  tidy : ∀ a ∈ as, a.Tidy
  beyond : ∀ a ∈ as, a.Beyond n
  within : ∀ a ∈ as, a.Within m
  disjoint : as.Pairwise Disjoint

namespace NumberedBetween

variable {n k m : Nat} {as bs : List Automaton} {a : Automaton}

theorem nil (n m : Nat) : NumberedBetween n m [] :=
  ⟨fun _ h => absurd h List.not_mem_nil, fun _ h => absurd h List.not_mem_nil,
    fun _ h => absurd h List.not_mem_nil, List.Pairwise.nil⟩

/-- One table lies between numbers that its states lie between. -/
theorem singleton (htidy : a.Tidy) (hbeyond : a.Beyond n) (hwithin : a.Within m) :
    NumberedBetween n m [a] :=
  ⟨List.forall_mem_singleton.mpr htidy, List.forall_mem_singleton.mpr hbeyond,
    List.forall_mem_singleton.mpr hwithin, List.pairwise_singleton _ _⟩

/-- Tables that are made **one after the other** are laid side by side. The second
starts with the number that the first ended with. -/
theorem append (has : NumberedBetween n k as) (hbs : NumberedBetween k m bs) (hnk : n ≤ k)
    (hkm : k ≤ m) : NumberedBetween n m (as ++ bs) where
  tidy := List.forall_mem_append.mpr ⟨has.tidy, hbs.tidy⟩
  beyond := List.forall_mem_append.mpr ⟨has.beyond, fun b hb => (hbs.beyond b hb).mono hnk⟩
  within := List.forall_mem_append.mpr ⟨fun a ha => (has.within a ha).mono hkm, hbs.within⟩
  disjoint := List.pairwise_append.mpr ⟨has.disjoint, hbs.disjoint,
    fun a ha b hb => (has.within a ha).disjoint (hbs.beyond b hb)⟩

/-- Of tables that are laid side by side in groups, each group is. The tables of one
rule are such a group among those of all rules. -/
theorem of_mem_flatMap {ι : Type} {tables : ι → List Automaton} {is : List ι} {i : ι}
    (h : NumberedBetween n m (is.flatMap tables)) (hi : i ∈ is) :
    NumberedBetween n m (tables i) where
  tidy a ha := h.tidy a (List.mem_flatMap.mpr ⟨i, hi, ha⟩)
  beyond a ha := h.beyond a (List.mem_flatMap.mpr ⟨i, hi, ha⟩)
  within a ha := h.within a (List.mem_flatMap.mpr ⟨i, hi, ha⟩)
  disjoint := (List.pairwise_flatMap.mp h.disjoint).1 i hi

end NumberedBetween

/-- Recodings of tables side by side are parts of **one renaming**. Each table
brings a renaming of its own, and since tables share no numbers on either side these
fit together. -/
theorem exists_map_rename {as bs : List Automaton} {n m n' m' : Nat}
    (h : List.Forall₂ Recodes as bs) (has : NumberedBetween n m as)
    (hbs : NumberedBetween n' m' bs) : ∃ f : Equiv.Perm State, Recoding f ∧
    bs = as.map fun a => a.rename f := by
  have hfst : (as.zip bs).map Prod.fst = as := List.map_fst_zip h.length_eq.le
  have hsnd : (as.zip bs).map Prod.snd = bs := List.map_snd_zip h.length_eq.ge
  have htidy : ∀ p ∈ as.zip bs, p.1.Tidy := fun p hp => has.tidy p.1 (List.of_mem_zip hp).1
  have hrec : ∀ p ∈ as.zip bs, ∃ f : Equiv.Perm State, Recoding f ∧ p.2 = p.1.rename f :=
    fun _ hp => (List.forall₂_zip h hp).exists_rename
  have hdisjoint : (as.zip bs).Pairwise fun p q => Disjoint p.1 q.1 := by
    rw [← List.pairwise_map, hfst]
    exact has.disjoint
  have hdisjoint' : (as.zip bs).Pairwise fun p q => Disjoint p.2 q.2 := by
    rw [← List.pairwise_map, hsnd]
    exact hbs.disjoint
  obtain ⟨f, hf, hall⟩ := exists_recoding_forall (P := fun p f => p.2 = p.1.rename f)
    (σ := fun p : Automaton × Automaton => p.1.states) (τ := fun p => p.2.states)
    (fun _ _ _ hfg hp => hp.trans (rename_congr hfg))
    (fun p hp f hf heq => heq ▸ states_rename (htidy p hp) hf) hrec hdisjoint hdisjoint'
  refine ⟨f, hf, ?_⟩
  calc bs = (as.zip bs).map Prod.snd := hsnd.symm
    _ = (as.zip bs).map fun p => p.1.rename f := List.map_congr_left hall
    _ = ((as.zip bs).map Prod.fst).map fun a => a.rename f := by rw [List.map_map]; rfl
    _ = as.map fun a => a.rename f := by rw [hfst]

end Automaton

/-! ## Expressions -/

namespace Expression

open Automaton

/-- The expression with the states of **all its tables** renamed. -/
def rename (f : State → State) : Expression → Expression
  | single a => single (a.rename f)
  | interleave blocks tieBreak => interleave (blocks.map fun a => a.rename f) tieBreak

/-- The states of all tables. -/
def states (e : Expression) : List State := e.automata.flatMap Automaton.states

/-- The expressions are of one form with the same tie-break, and **each table** is a
renaming of the other one's. -/
inductive Recodes : Expression → Expression → Prop
  | single {a b : Automaton} (h : a.Recodes b) : Recodes (single a) (single b)
  | interleave {as bs : List Automaton} (tieBreak : TieBreak)
      (h : List.Forall₂ Automaton.Recodes as bs) :
      Recodes (interleave as tieBreak) (interleave bs tieBreak)

variable {e e' : Expression} {f g : State → State} {n m n' m' : Nat}

/-- The tables of a renamed content are renamed, in order. -/
theorem automata_rename (e : Expression) (f : State → State) :
    (e.rename f).automata = e.automata.map fun a => a.rename f := by
  cases e with
  | single a => rfl
  | interleave blocks tieBreak => rfl

/-- What a renaming does to other states does not matter. -/
theorem rename_congr (h : ∀ s ∈ e.states, f s = g s) : e.rename f = e.rename g := by
  have htables : ∀ a ∈ e.automata, a.rename f = a.rename g := fun a ha =>
    Automaton.rename_congr fun s hs => h s (List.mem_flatMap.mpr ⟨a, ha, hs⟩)
  cases e with
  | single a => exact congrArg single (htables a (List.mem_singleton_self a))
  | interleave blocks tieBreak =>
      exact congrArg (interleave · tieBreak) (List.map_congr_left htables)

/-- Its states are the renamed states: each table is tidy, so none of them is lost. -/
theorem states_rename (htidy : ∀ a ∈ e.automata, a.Tidy) (hf : Recoding f) :
    (e.rename f).states = e.states.map f := by
  rw [states, automata_rename, List.flatMap_map, states, List.map_flatMap]
  apply List.flatMap_congr
  exact fun a ha => Automaton.states_rename (htidy a ha) hf

/-- Contents that are the same but for the names of states have such tables,
one by one. -/
theorem Recodes.forall₂_automata (h : e.Recodes e') :
    List.Forall₂ Automaton.Recodes e.automata e'.automata := by
  cases h with
  | single h => exact .cons h .nil
  | interleave _ h => exact h

/-- With tables side by side in both, it is **one renaming**. Without that, two blocks
could have a state in common on one side only. -/
theorem Recodes.exists_rename (h : e.Recodes e') (he : NumberedBetween n m e.automata)
    (he' : NumberedBetween n' m' e'.automata) : ∃ f : Equiv.Perm State, Recoding f ∧
    e' = e.rename f := by
  obtain ⟨f, hf, heq⟩ := exists_map_rename h.forall₂_automata he he'
  refine ⟨f, hf, ?_⟩
  cases h with
  | single h => exact congrArg Expression.single (List.cons.inj heq).1
  | interleave tieBreak h => exact congrArg (Expression.interleave · tieBreak) heq

/-- The tables of the two can do the same. A renaming does not show in what a
content takes. -/
theorem Recodes.alike (h : e.Recodes e') : e.Alike e' := by
  have htables : ∀ a b : Automaton, a.Recodes b → a.Alike b := by
    rintro a _ ⟨ha, f, hf, rfl⟩
    exact ((mirrors_rename ha f.injective).renames hf).alike
  cases h with
  | single h => exact .single (htables _ _ h)
  | interleave tieBreak h => exact .interleave tieBreak (h.imp htables)

/-- The same tokens occur in contents that behave alike. The lists may differ in
their order. -/
theorem Alike.mem_allowedTokens_iff (h : Alike e e') (x : Token) :
    x ∈ e'.allowedTokens ↔ x ∈ e.allowedTokens := by
  have heq := h.isAllowed_eq x
  rw [isAllowed, isAllowed, decide_eq_decide] at heq
  exact heq.symm

end Expression

/-- Contents that behave alike **imply the same kind** of element. Only the tokens that
occur in the content decide about the kind. -/
theorem ElementKind.infer_eq {e e' : Expression} (h : e.Alike e') : infer e' = infer e := by
  have hany : (e'.allowedTokens.any fun t => !t.isText) = e.allowedTokens.any
      fun t => !t.isText := by
    rw [Bool.eq_iff_iff, List.any_eq_true, List.any_eq_true]
    simp only [h.mem_allowedTokens_iff]
  rw [infer, infer, Expression.isTextAllowed, Expression.isTextAllowed, h.isAllowed_eq, hany]

end TreeGrammar
