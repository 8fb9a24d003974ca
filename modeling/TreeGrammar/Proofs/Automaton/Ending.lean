/-
A table whose end lies elsewhere.

Putting one table behind another, or behind itself, begins alike: the epsilon edge of
`start` goes, and what entered `fin` enters a new state `q` instead. Chains and paths
are those of the table as it was, except that they end in `q`; only a path that is
nothing but the epsilon edge of `start` has no counterpart.
-/
import TreeGrammar.Proofs.Automaton.Path

set_option autoImplicit false

namespace TreeGrammar.Automaton

/-- The table with its **end moved** to `q`. -/
def moveEnd (a : Automaton) (q : State) : Automaton := (a.remove .start .epsilon).redirect .fin q

variable {a : Automaton} {q s r t : State} {l : Label} {w : List Token} {n : Nat}

/-- Each edge but the epsilon edge of `start` stays, and enters `q` where it entered
`fin`. Both operators that move the end give this edge back later, if it is due. -/
theorem target_moveEnd : (a.moveEnd q).target s l = some t ↔
    ¬ (s = .start ∧ l = .epsilon) ∧
      ∃ t₀, a.target s l = some t₀ ∧ t = if t₀ = .fin then q else t₀ := by
  unfold moveEnd
  rw [target_redirect, target_remove]
  by_cases h : State.start = s ∧ Label.epsilon = l
  · obtain ⟨rfl, rfl⟩ := h
    simp
  · have h' : ¬ (s = .start ∧ l = .epsilon) := fun e => h ⟨e.1.symm, e.2.symm⟩
    rw [if_neg h, Option.map_eq_some_iff]
    constructor
    · rintro ⟨t₀, ht₀, ht⟩
      exact ⟨h', t₀, ht₀, ht.symm⟩
    · rintro ⟨-, t₀, ht₀, ht⟩
      exact ⟨t₀, ht₀, ht.symm⟩

/-- An edge that did not enter `fin` stays as it is. -/
theorem target_moveEnd_of_ne_fin (hsl : ¬ (s = .start ∧ l = .epsilon)) (h : a.target s l = some t)
    (ht : t ≠ .fin) : (a.moveEnd q).target s l = some t :=
  target_moveEnd.mpr ⟨hsl, t, h, (if_neg ht).symm⟩

/-- An edge that entered `fin` enters `q`. -/
theorem target_moveEnd_of_fin (hsl : ¬ (s = .start ∧ l = .epsilon))
    (h : a.target s l = some .fin) : (a.moveEnd q).target s l = some q :=
  target_moveEnd.mpr ⟨hsl, .fin, h, (if_pos rfl).symm⟩

/-- The epsilon edge of `start` is gone: it said that the table may be empty, and that
question is the result's own. -/
theorem epsilon_start_moveEnd (a : Automaton) (q : State) :
    (a.moveEnd q).epsilon .start = none := by
  cases h : (a.moveEnd q).epsilon .start with
  | none => rfl
  | some t => exact absurd ⟨rfl, rfl⟩ (target_moveEnd.mp h).1

/-- The sources are those of the table, so the new end is left by no edge. -/
theorem source_mem_of_moveEnd (h : (a.moveEnd q).target s l = some t) : s ∈ a.states := by
  obtain ⟨-, t₀, ht₀, -⟩ := target_moveEnd.mp h
  exact source_mem_states ht₀

/-- Each edge enters the new end, or a state of the table other than the old one. -/
theorem target_mem_of_moveEnd (h : (a.moveEnd q).target s l = some t) :
    t = q ∨ t ∈ a.states ∧ t ≠ .fin := by
  obtain ⟨-, t₀, ht₀, rfl⟩ := target_moveEnd.mp h
  by_cases hfin : t₀ = .fin
  · rw [if_pos hfin]
    exact .inl rfl
  · rw [if_neg hfin]
    exact .inr ⟨target_mem_states ht₀, hfin⟩

/-- Nothing leaves the new end as yet. It is left to the operator what comes
behind it. -/
theorem target_moveEnd_end (hq : q ∉ a.states) (l : Label) : (a.moveEnd q).target q l = none := by
  cases h : (a.moveEnd q).target q l with
  | none => rfl
  | some t => exact absurd (source_mem_of_moveEnd h) hq

/-! ## Chains -/

/-- A state that passed to `fin`, other than by the epsilon edge of `start`, passes to
`q`. All epsilon edges on the way stay as they are, but for the last, which enters the
new end. -/
theorem passes_moveEnd (h : a.WellFormed) (hs : s ≠ .start) (hfin : s ≠ .fin)
    (hp : a.Passes s .fin) : (a.moveEnd q).Passes s q := by
  induction hp using Relation.ReflTransGen.head_induction_on with
  | refl => exact absurd rfl hfin
  | @head s r hstep _ ih =>
      by_cases hr : r = .fin
      · rw [hr] at hstep
        exact (passes_refl _ q).head (target_moveEnd_of_fin (fun e => hs e.1) hstep)
      · exact (ih (h.ne_start hstep) hr).head
          (target_moveEnd_of_ne_fin (fun e => hs e.1) hstep hr)

/-- A state that passes to `q` **passed to `fin`**. Moving the end makes up
no chains. -/
theorem passes_fin_of_moveEnd (hq : q ∉ a.states) (hs : s ≠ q)
    (hp : (a.moveEnd q).Passes s q) : a.Passes s .fin := by
  induction hp using Relation.ReflTransGen.head_induction_on with
  | refl => exact absurd rfl hs
  | @head s r hstep _ ih =>
      obtain ⟨-, t₀, ht₀, rfl⟩ := target_moveEnd.mp hstep
      by_cases hfin : t₀ = .fin
      · rw [hfin] at ht₀
        exact (a.passes_refl .fin).head ht₀
      · rw [if_neg hfin] at ih
        refine (ih ?_).head ht₀
        rintro rfl
        exact hq (target_mem_states ht₀)

/-! ## Paths -/

/-- A path to `fin` from any other state but `start` leads to `q`. Only its last edge
enters `fin`, and that one has been moved. -/
theorem path_moveEnd (h : a.WellFormed) (hs : s ≠ .start) (hfin : s ≠ .fin)
    (p : a.Path .fin s w) : (a.moveEnd q).Path q s w := by
  induction p with
  | refl => exact absurd rfl hfin
  | @step s r l w hst rest ih =>
      -- the last edge is the one that entered `fin`, since no edge leaves it
      by_cases hr : r = .fin
      · subst hr
        rw [h.eq_nil_of_path_fin rest]
        exact .step (target_moveEnd_of_fin (fun e => hs e.1) hst) .refl
      · exact .step (target_moveEnd_of_ne_fin (fun e => hs e.1) hst hr) (ih (h.ne_start hst) hr)

/-- A path from `start` to `fin` leads to `q`, **or is the epsilon edge** of `start`.
The second case is what an operator has to make up for: a first part that may be empty
has to be passed over in another way. -/
theorem path_start_moveEnd (h : a.WellFormed) (p : a.Path .fin .start w) :
    (w = [] ∧ a.epsilon .start = some .fin) ∨ (a.moveEnd q).Path q .start w := by
  cases p with
  | @step _ r l w hst rest =>
      by_cases hl : l = .epsilon
      · subst hl
        have hr : r = .fin := h.epsilon_start r hst
        subst hr
        rw [h.eq_nil_of_path_fin rest]
        exact .inl ⟨rfl, hst⟩
      · right
        by_cases hr : r = .fin
        · subst hr
          rw [h.eq_nil_of_path_fin rest]
          exact .step (target_moveEnd_of_fin (fun e => hl e.2) hst) .refl
        · exact .step (target_moveEnd_of_ne_fin (fun e => hl e.2) hst hr)
            (path_moveEnd h (h.ne_start hst) hr rest)

end TreeGrammar.Automaton
