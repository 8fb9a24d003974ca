/-
What the chains of one table after another offer.

A run sees a state by its chain alone. `passes_append` says where the chains of `append`
lead, and `AppendOffer` what edges they meet on the way: those of the chain in the first
table, followed by the edges that open the second table where the first may end; or
those of the chain in the second table. That is all that is needed to show that edges
are shadowed only where one was lost (`Coherent.append`).
-/
import TreeGrammar.Proofs.Automaton.AppendWords

set_option autoImplicit false

namespace TreeGrammar.Automaton

open Appending

variable {n : Nat} {a b : Automaton} {s r t : State} {l : Label} {x : Token}

/-- Only the edges that open the second table leave the join. It has no edges of its
own, being neither a state of the first table nor of the second. -/
theorem target_append_join (ha : a.WellFormed) (hb : b.WellFormed) (hwa : a.Within n)
    (hwb : b.Within n) (h : (append n a b).automaton.target (join n a b) l = some t) :
    (right n a b).target .start l = some t := by
  -- the join is a state of neither table, so only what was given to it is left
  generalize hq : join n a b = q at h
  rcases (target_append ha hb hwa hwb).mp h with h | ⟨hf, -, -⟩ | ⟨-, h⟩ | ⟨-, h⟩ | _
  · rw [← hq] at h
    exact absurd (source_mem_of_moveEnd h) (join_notMem_left hwa)
  · rw [← hq] at hf
    exact absurd (feeder_mem_left ha hwa hf) (join_notMem_left hwa)
  · rw [← hq] at h
    exact absurd (source_mem_states h) (join_notMem_right hwb)
  · exact h
  · exact absurd hq join_ne_start

/-- A chain that begins in the second table, elsewhere than at `start`, stays so. So
nothing of the first table is met again on it. -/
theorem mem_right_of_passes (hb : b.WellFormed) (hs : s ≠ .start) (hmem : s ∈ (right n a b).states)
    (hp : (right n a b).Passes s r) : r ≠ .start ∧ r ∈ (right n a b).states := by
  constructor
  · rintro rfl
    exact hs ((right_wellFormed hb).eq_start_of_passes hp)
  · rcases Relation.ReflTransGen.cases_tail hp with rfl | ⟨q, -, hq⟩
    · exact hmem
    · exact target_mem_states hq

/-- What a state **passes to** along its chain, in one table after another: a state of
the first table, the join, or a state of the second. -/
theorem passes_append (ha : a.WellFormed) (hb : b.WellFormed) (hwa : a.Within n)
    (hwb : b.Within n) (h : (append n a b).automaton.Passes s r) :
    (r ≠ .fin ∧ a.Passes s r) ∨
    (s ≠ .fin ∧ a.Passes s .fin ∧
      (r = join n a b ∨ r = .fin ∧ (right n a b).Passes .start .fin)) ∨
    (s ≠ .start ∧ s ∈ (right n a b).states ∧ (right n a b).Passes s r) ∨
    (s = join n a b ∧ (r = join n a b ∨ r = .fin ∧ (right n a b).Passes .start .fin)) := by
  have hbr : (right n a b).WellFormed := right_wellFormed hb
  have happ := ha.append hb hwa hwb
  -- the only epsilon edge that opens a table enters `fin`
  have hopening : ∀ q, (right n a b).target .start .epsilon = some q →
      q = .fin ∧ (right n a b).Passes .start .fin := by
    intro q hq
    have hfin := hbr.epsilon_start q hq
    subst hfin
    exact ⟨rfl, (passes_refl _ .fin).head hq⟩
  -- the induction is on the chain, one edge more at its end
  induction h with
  | refl =>
      by_cases hs : s = .fin
      · subst hs
        exact .inr (.inr (.inl ⟨by simp, fin_mem_states _, passes_refl _ _⟩))
      · exact .inl ⟨hs, a.passes_refl s⟩
  | @tail r q _ hstep ih =>
      rcases ih with ⟨hr, hp⟩ | ⟨hs, hp, rfl | ⟨rfl, -⟩⟩ | ⟨hs, hmem, hp⟩ | ⟨hs, rfl | ⟨rfl, -⟩⟩
      · -- in the first table so far: all kinds of edges but those given to a feeder, which take a
        -- token
        have hs : s ≠ .fin := by
          rintro rfl
          exact hr (ha.eq_of_passes_fin hp)
        rcases (target_append ha hb hwa hwb).mp hstep with
          h | _ | ⟨hr, h⟩ | ⟨-, h⟩ | ⟨hnull, -, h⟩
        · obtain ⟨-, t₀, ht₀, rfl⟩ := target_moveEnd.mp h
          by_cases hfin : t₀ = .fin
          · subst hfin
            exact .inr (.inl ⟨hs, hp.tail ht₀, .inl (if_pos rfl)⟩)
          · rw [if_neg hfin]
            exact .inl ⟨hfin, hp.tail ht₀⟩
        · obtain rfl := eq_of_passes_notMem hp (notMem_left_of_right hwa hb hr h)
          exact .inr (.inr (.inl ⟨hr, source_mem_states h, (passes_refl _ q).head h⟩))
        · exact .inr (.inr (.inr ⟨eq_of_passes_notMem hp (join_notMem_left hwa),
            .inr (hopening q h)⟩))
        · have hstart := ha.passes_start_fin.mpr hnull
          rw [ha.eq_start_of_passes hp]
          exact .inr (.inl ⟨by simp, hstart, .inr (hopening q h)⟩)
      · exact .inr (.inl ⟨hs, hp, .inr (hopening q (target_append_join ha hb hwa hwb hstep))⟩)
      · exact absurd rfl (happ.ne_fin hstep)
      · obtain ⟨hrstart, hrmem⟩ := mem_right_of_passes hb hs hmem hp
        exact .inr (.inr (.inl ⟨hs, hmem,
          hp.tail (target_append_right ha hb hwa hwb hrstart hrmem hstep)⟩))
      · exact .inr (.inr (.inr ⟨hs, .inr (hopening q (target_append_join ha hb hwa hwb hstep))⟩))
      · exact absurd rfl (happ.ne_fin hstep)

/-- **What a chain offers**: an edge for the token, by which part of the chain
it is met in. -/
inductive AppendOffer (n : Nat) (a b : Automaton) (s : State) (x : Token) (t : State) : Prop
  /-- In the first table. -/
  | left {r : State} (hp : a.Passes s r) (h : (left n a b).target r (.token x) = some t)
  /-- After the first table. -/
  | after (hs : s ≠ .fin) (hp : a.Passes s .fin)
      (h : (right n a b).target .start (.token x) = some t)
  /-- In the second table. -/
  | right {r : State} (hs : s ≠ .start) (hmem : s ∈ (right n a b).states)
      (hp : (right n a b).Passes s r) (h : (right n a b).target r (.token x) = some t)
  /-- At the join. -/
  | join (hs : s = join n a b) (h : (Appending.right n a b).target .start (.token x) = some t)

/-- What a chain of the result offers for a token is **one of four kinds of offers**.
The chain is followed edge by edge, and may cross from the first table to the second
only once. -/
theorem appendOffer_of_passes (ha : a.WellFormed) (hb : b.WellFormed) (hwa : a.Within n)
    (hwb : b.Within n) (hchain : (append n a b).automaton.Passes s r)
    (h : (append n a b).automaton.target r (.token x) = some t) : AppendOffer n a b s x t := by
  have happ := ha.append hb hwa hwb
  -- where the chain has led decides which edges there can be
  rcases passes_append ha hb hwa hwb hchain with
    ⟨hr, hp⟩ | ⟨hs, hp, rfl | ⟨rfl, -⟩⟩ | ⟨hs, hmem, hp⟩ | ⟨hs, rfl | ⟨rfl, -⟩⟩
  · have hs : s ≠ .fin := by
      rintro rfl
      exact hr (ha.eq_of_passes_fin hp)
    rcases (target_append ha hb hwa hwb).mp h with
      h | ⟨hf, -, h⟩ | ⟨hr, h⟩ | ⟨-, h⟩ | ⟨hnull, -, h⟩
    · exact .left hp h
    · exact .after hs (hp.trans ((mem_feeders_iff ha hwa).mp hf).2.2) h
    · obtain rfl := eq_of_passes_notMem hp (notMem_left_of_right hwa hb hr h)
      exact .right hr (source_mem_states h) (passes_refl _ s) h
    · exact .join (eq_of_passes_notMem hp (join_notMem_left hwa)) h
    · exact .after hs (ha.eq_start_of_passes hp ▸ ha.passes_start_fin.mpr hnull) h
  · exact .after hs hp (target_append_join ha hb hwa hwb h)
  · exact absurd rfl (happ.ne_fin h)
  · obtain ⟨hrstart, hrmem⟩ := mem_right_of_passes hb hs hmem hp
    exact .right hs hmem hp (target_append_right ha hb hwa hwb hrstart hrmem h)
  · exact .join hs (target_append_join ha hb hwa hwb h)
  · exact absurd rfl (happ.ne_fin h)

/-- Where the content may end **after both tables**. -/
theorem passes_fin_append (ha : a.WellFormed) (hb : b.WellFormed) (hwa : a.Within n)
    (hwb : b.Within n) (h : (append n a b).automaton.Passes s .fin) :
    (s ≠ .fin ∧ a.Passes s .fin ∧ (right n a b).Passes .start .fin) ∨
    (s ≠ .start ∧ s ∈ (right n a b).states ∧ (right n a b).Passes s .fin) ∨
    (s = join n a b ∧ (right n a b).Passes .start .fin) := by
  rcases passes_append ha hb hwa hwb h with
    ⟨hr, -⟩ | ⟨hs, hp, hr | ⟨-, hr⟩⟩ | hright | ⟨hs, hr | ⟨-, hr⟩⟩
  · exact absurd rfl hr
  · exact absurd hr.symm join_ne_fin
  · exact .inl ⟨hs, hp, hr⟩
  · exact .inr (.inl hright)
  · exact absurd hr.symm join_ne_fin
  · exact .inr (.inr ⟨hs, hr⟩)

/-! ## Which part a state is in -/

/-- A state whose chain meets an edge of the first table is **a state of the first**.
The chain may have left the state, but it has not left the table, and it has not come to
the end. -/
theorem source_of_passes_left (ha : a.WellFormed) (hp : a.Passes s r)
    (h : (left n a b).target r l = some t) : s ∈ a.states ∧ s ≠ .fin := by
  obtain ⟨-, t₀, ht₀, -⟩ := target_moveEnd.mp h
  obtain ⟨l', t', hst⟩ := exists_target_of_passes hp ht₀
  exact ⟨source_mem_states hst, ha.ne_fin hst⟩

/-- A numbered state of the first table is none of the second. -/
theorem notMem_right (hwa : a.Within n) (hs : s ∈ a.states) (hfin : s ≠ .fin)
    (hstart : s ≠ .start) : s ∉ (right n a b).states := by
  cases s with
  | start => exact absurd rfl hstart
  | fin => exact absurd rfl hfin
  | id k => exact apart_disjoint a b hwa hs

/-! ## Shadows -/

/-- Without a loss, where the first table may end **no edge of it is for a token that
opens the second**. If it ends where it is, its feeder has the free place that the loss
would have needed; if the chain is longer, the end of it has. -/
theorem opening_ne_of_passes_fin (ha : a.WellFormed) (hb : b.WellFormed) (hwa : a.Within n)
    (hwb : b.Within n) (hcollisions : (append n a b).collisions = []) (hr : a.Passes s r)
    (ht : (left n a b).target r (.token x) = some t) (hfin : a.Passes s .fin) {t' : State} :
    (right n a b).target .start (.token x) ≠ some t' := by
  obtain ⟨hfeeds, hopens⟩ := (append_collisions ha hb hwa hwb).mp hcollisions
  intro ht'
  have hrfin : r ≠ .fin := by
    obtain ⟨-, t₀, ht₀, -⟩ := target_moveEnd.mp ht
    exact ha.ne_fin ht₀
  -- the edge is met before the end, so its state is a feeder, or `start`
  have hpass : a.Passes r .fin := by
    rcases passes_or_passes hr hfin with h | h
    · exact h
    · exact absurd (ha.eq_of_passes_fin h) hrfin
  by_cases hstart : r = .start
  · subst hstart
    rw [hopens (ha.passes_start_fin.mp hpass) _ t' ht'] at ht
    exact absurd ht (by simp)
  · rw [hfeeds r ((mem_feeders_iff ha hwa).mpr ⟨hstart, hrfin, hpass⟩) x t' ht'] at ht
    exact absurd ht (by simp)

/-- Without a loss, one table after another **has no shadowed edges** if they have
none. Two edges for one token on one chain are of the first table, or of the second, or
one of each. The last is what an unrecorded loss would look like, and it is excluded by
what precedes. -/
theorem Coherent.append (ha : a.WellFormed) (hb : b.WellFormed) (hwa : a.Within n)
    (hwb : b.Within n) (hca : a.Coherent) (hcb : b.Coherent)
    (hcollisions : (append n a b).collisions = []) : (append n a b).automaton.Coherent := by
  intro s r r' x t t' hr hr' ht ht'
  have hoffer := appendOffer_of_passes ha hb hwa hwb hr ht
  have hoffer' := appendOffer_of_passes ha hb hwa hwb hr' ht'
  -- two edges of one part agree there; edges of two parts never meet in a chain, or one
  -- would have been lost
  rcases hoffer with ⟨hp, h⟩ | ⟨hs, hp, h⟩ | ⟨hs, hm, hp, h⟩ | ⟨rfl, h⟩
  · obtain ⟨hsa, hfin⟩ := source_of_passes_left ha hp h
    rcases hoffer' with ⟨hp', h'⟩ | ⟨-, hp', h'⟩ | ⟨hs, hm, -⟩ | ⟨rfl, -⟩
    · obtain ⟨-, t₀, ht₀, rfl⟩ := target_moveEnd.mp h
      obtain ⟨-, t₀', ht₀', rfl⟩ := target_moveEnd.mp h'
      rw [hca s _ _ x t₀ t₀' hp hp' ht₀ ht₀']
    · exact absurd h' (opening_ne_of_passes_fin ha hb hwa hwb hcollisions hp h hp')
    · exact absurd hm (notMem_right hwa hsa hfin hs)
    · exact absurd hsa (join_notMem_left hwa)
  · have hsa := mem_of_passes_fin hs hp
    rcases hoffer' with ⟨hp', h'⟩ | ⟨-, -, h'⟩ | ⟨hs', hm, -⟩ | ⟨rfl, -⟩
    · exact absurd h (opening_ne_of_passes_fin ha hb hwa hwb hcollisions hp' h' hp)
    · exact Option.some.inj (h.symm.trans h')
    · exact absurd hm (notMem_right hwa hsa hs hs')
    · exact absurd hsa (join_notMem_left hwa)
  · rcases hoffer' with ⟨hp', h'⟩ | ⟨hs', hp', -⟩ | ⟨-, -, hp', h'⟩ | ⟨rfl, -⟩
    · obtain ⟨hsa, hfin⟩ := source_of_passes_left ha hp' h'
      exact absurd hm (notMem_right hwa hsa hfin hs)
    · exact absurd hm (notMem_right hwa (mem_of_passes_fin hs' hp') hs' hs)
    · exact hcb.apart n a s _ _ x t t' hp hp' h h'
    · exact absurd hm (join_notMem_right hwb)
  · rcases hoffer' with ⟨hp', h'⟩ | ⟨hs', hp', -⟩ | ⟨-, hm, -⟩ | ⟨-, h'⟩
    · exact absurd (source_of_passes_left ha hp' h').1 (join_notMem_left hwa)
    · exact absurd (mem_of_passes_fin hs' hp') (join_notMem_left hwa)
    · exact absurd hm (join_notMem_right hwb)
    · exact Option.some.inj (h.symm.trans h')

end TreeGrammar.Automaton
