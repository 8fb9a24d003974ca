/-
Tables that cannot be told apart from two states on.

A **bisimulation** is a relation between the states of two tables that says the same of
where the content may end and is kept by every token. From related states on, runs read
the same words (`Bisimilar.reads_iff`). Where one table is carried to another, each
state of the domain and its name are related; so a copy accepts what the original
accepts, and a table that is put into another can be run where it now is.
-/
import TreeGrammar.Proofs.Automaton.Path

set_option autoImplicit false

namespace TreeGrammar.Automaton

/-- Related states say the same of where the content **may end**, and every token takes
them to related states. -/
structure Bisimulation (R : State → State → Prop) (a b : Automaton) : Prop where
  finished : ∀ s s', R s s' → a.isFinished s = b.isFinished s'
  consume : ∀ s s' x, R s s' → Option.Rel R (a.consume s x) (b.consume s' x)

/-- The state `s'` of `b` can do what the state `s` of `a` can do. -/
def Bisimilar (a b : Automaton) (s s' : State) : Prop := ∃ R, Bisimulation R a b ∧ R s s'

variable {a b : Automaton} {s s' : State} {w : List Token}

/-- Bisimilar states agree on whether the content may end: for the empty word that is
all that acceptance says. -/
theorem Bisimilar.isFinished_eq (h : Bisimilar a b s s') : a.isFinished s = b.isFinished s' := by
  obtain ⟨R, hR, hs⟩ := h
  exact hR.finished s s' hs

/-- A token takes bisimilar states to bisimilar states, **or is rejected by both**. -/
theorem Bisimilar.consume (h : Bisimilar a b s s') (x : Token) :
    Option.Rel (Bisimilar a b) (a.consume s x) (b.consume s' x) := by
  -- the states that are entered are related by the same bisimulation
  obtain ⟨R, hR, hs⟩ := h
  have hstep := hR.consume s s' x hs
  generalize a.consume s x = o at hstep ⊢
  generalize b.consume s' x = o' at hstep ⊢
  cases hstep with
  | none => exact .none
  | some hr => exact .some ⟨R, hR, hr⟩

/-- From bisimilar states **the same words** are read. Being bisimilar is defined by
acceptance, token by token, so this is by induction on the word. -/
theorem Bisimilar.reads_iff (h : Bisimilar a b s s') : a.Reads s w ↔ b.Reads s' w := by
  induction w generalizing s s' with
  | nil => rw [reads_nil, reads_nil, ← isFinished_iff, ← isFinished_iff, h.isFinished_eq]
  | cons x w ih =>
      rw [reads_cons, reads_cons]
      have hnext := h.consume x
      generalize a.consume s x = o at hnext ⊢
      generalize b.consume s' x = o' at hnext ⊢
      cases hnext with
      | none => simp
      | some ht => simpa using ih ht

namespace Carries

variable {f : State → State} {p : State → Prop}

/-- A state that is carried **is bisimilar to** the state it is carried to: carrying
keeps the edges along the chain, and so what is taken and where the content may end. -/
theorem bisimilar_apply (h : Carries f p a b) (hs : p s) : Bisimilar a b s (f s) := by
  refine ⟨fun s s' => p s ∧ f s = s', ⟨?_, ?_⟩, hs, rfl⟩
  · rintro s _ ⟨hs, rfl⟩
    exact (h.isFinished_eq hs).symm
  · rintro s _ x ⟨hs, rfl⟩
    rw [h.consume_eq hs x]
    cases hc : a.consume s x with
    | none => exact .none
    | some t => exact .some ⟨h.mem_of_consume hs hc, rfl⟩

/-- A state that is carried reads what its image reads. -/
theorem reads_iff (h : Carries f p a b) (hs : p s) : a.Reads s w ↔ b.Reads (f s) w :=
  (h.bisimilar_apply hs).reads_iff

end Carries

/-- What is put beside a table accepts what the second table accepts, **copied or not**.
The shared numbers that make a copy necessary cannot be seen from outside. -/
theorem accepts_apart (n : Nat) (a b : Automaton) (w : List Token) :
    (apart n a b).automaton.accepts w = b.accepts w := by
  refine apart_induction (motive := fun d => d.automaton.accepts w = b.accepts w) n a b rfl ?_
  rw [Bool.eq_iff_iff, accepts_iff, accepts_iff,
    (renames_copy b n).carries.reads_iff b.start_mem_states, (renames_copy b n).apply_start]

end TreeGrammar.Automaton
