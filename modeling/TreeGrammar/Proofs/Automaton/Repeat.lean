/-
One table over and over.

`optional` gives `start` its epsilon edge, and `plus` turns a table back upon itself:
what ended it enters a new state that opens like the table, and may end there. No edge
of a table is lost by this, so both spell what they should, whatever the table is
(`spelled_optional`, `spelled_plus`). It is another matter what is accepted: the new
state is tried by a chain only after the state that led to it, whose edges may shadow
its own.
-/
import TreeGrammar.Proofs.Automaton.Ending

set_option autoImplicit false

open scoped Computability

namespace TreeGrammar.Automaton

variable {n : Nat} {a : Automaton} {s r t : State} {l : Label} {x : Token} {w : List Token}

/-! ## Once or not at all -/

/-- The edges of an optional table: a new one, and those that were there. An epsilon
edge that `start` had before gives way to it. -/
theorem target_optional (a : Automaton) (s : State) (l : Label) : a.optional.target s l =
    if State.start = s ∧ Label.epsilon = l then some .fin else a.target s l :=
  target_insert a .start s .epsilon l .fin

/-- Everywhere else the edge is the one that was there. -/
theorem target_optional_of_ne (h : ¬ (s = .start ∧ l = .epsilon)) :
    a.optional.target s l = a.target s l := by
  rw [target_optional, if_neg]
  rintro ⟨rfl, rfl⟩
  exact h ⟨rfl, rfl⟩

/-- The new edge leads from `start` straight to `fin`. -/
@[simp] theorem epsilon_start_optional (a : Automaton) : a.optional.epsilon .start = some .fin := by
  unfold epsilon
  rw [target_optional, if_pos ⟨rfl, rfl⟩]

/-- An edge of the table that need not run is the epsilon edge of `start`, or one
of the table. -/
theorem target_of_optional (h : a.optional.target s l = some t) :
    (s = .start ∧ l = .epsilon ∧ t = .fin) ∨ a.target s l = some t := by
  by_cases hsl : s = .start ∧ l = .epsilon
  · obtain ⟨rfl, rfl⟩ := hsl
    exact .inl ⟨rfl, rfl, Option.some.inj (h.symm.trans (epsilon_start_optional a))⟩
  · rw [target_optional_of_ne hsl] at h
    exact .inr h

/-- A table that need not run **keeps the rules**. The new edge leads to `fin`, as the
rules ask of an epsilon edge of `start`. -/
theorem WellFormed.optional (ha : a.WellFormed) : a.optional.WellFormed := by
  have hfin : ∀ l, a.optional.target .fin l = none := by
    intro l
    rw [target_optional_of_ne (by simp), ha.target_fin]
  refine ⟨?_, hfin, ?_, ?_⟩
  · intro s l h
    rcases target_of_optional h with ⟨-, -, hcontra⟩ | h
    · exact absurd hcontra (by simp)
    · exact ha.target_ne_start s l h
  · intro t h
    exact Option.some.inj (h.symm.trans (epsilon_start_optional a))
  · intro s
    induction ha.halts s with
    | intro s _ ih =>
        refine Acc.intro s fun q hq => ?_
        rcases target_of_optional hq with ⟨-, -, rfl⟩ | h
        · exact halts_of_epsilon_eq_none (hfin .epsilon)
        · exact ih q h

theorem Within.optional (ha : a.Within n) : a.optional.Within n := by
  refine Within.of_edges fun s l t h => ?_
  rcases target_of_optional h with ⟨rfl, -, rfl⟩ | h
  · exact ⟨fun k hk => absurd hk (by simp), fun k hk => absurd hk (by simp)⟩
  · refine ⟨?_, ?_⟩
    · rintro k rfl
      exact ha k (source_mem_states h)
    · rintro k rfl
      exact ha k (target_mem_states h)

/-- A chain of the optional table is a chain of the table, or **the new edge alone**:
nothing passes to `start`, and nothing leaves `fin`. -/
theorem passes_of_optional (ha : a.WellFormed) (h : a.optional.Passes s r) :
    a.Passes s r ∨ s = .start ∧ r = .fin := by
  induction h with
  | refl => exact .inl (a.passes_refl s)
  | @tail r q _ hstep ih =>
      rcases target_of_optional hstep with ⟨rfl, -, rfl⟩ | h
      · rcases ih with hp | ⟨-, hcontra⟩
        · exact .inr ⟨ha.eq_start_of_passes hp, rfl⟩
        · exact absurd hcontra (by simp)
      · rcases ih with hp | ⟨-, rfl⟩
        · exact .inl (hp.tail h)
        · exact absurd rfl (ha.ne_fin h)

/-- What a chain offers, it offers **without the new edge**. The chain that takes the
new edge ends in `fin`, which offers nothing. -/
theorem offer_of_optional (ha : a.WellFormed) (hp : a.optional.Passes s r)
    (h : a.optional.target r (.token x) = some t) :
    a.Passes s r ∧ a.target r (.token x) = some t := by
  rw [target_optional_of_ne (by simp)] at h
  rcases passes_of_optional ha hp with hp | ⟨-, rfl⟩
  · exact ⟨hp, h⟩
  · exact absurd rfl (ha.ne_fin h)

/-- The new edge takes no token, so it shadows nothing. -/
theorem Coherent.optional (ha : a.WellFormed) (hca : a.Coherent) : a.optional.Coherent := by
  intro s r r' x t t' hr hr' ht ht'
  obtain ⟨hr, ht⟩ := offer_of_optional ha hr ht
  obtain ⟨hr', ht'⟩ := offer_of_optional ha hr' ht'
  exact hca s r r' x t t' hr hr' ht ht'

/-- A table that need not run spells what the table spells, **and the empty word**.
The first letters of the table leave `start` by token edges, which the new edge
does not touch. -/
theorem spelled_optional (ha : a.WellFormed) : a.optional.spelled = 1 + a.spelled := by
  -- away from `start` both tables have the same edges
  have heq : ∀ s l, s ≠ .start → a.optional.target s l = a.target s l := fun s l hs =>
    target_optional_of_ne fun e => hs e.1
  ext w
  rw [Language.mem_add, Language.mem_one]
  constructor
  · intro hw
    cases hw with
    | step h rest =>
        rcases target_of_optional h with ⟨-, rfl, rfl⟩ | h
        · exact .inl (ha.optional.eq_nil_of_path_fin rest)
        · right
          refine Path.step h
            (rest.mono_of_ne_start ha.optional (fun s l t hs hst => ?_) (ha.ne_start h))
          rw [← heq s l hs, hst]
  · rintro (rfl | hw)
    · exact Path.epsilon (epsilon_start_optional a) .refl
    · cases hw with
      | @step _ r l w h rest =>
          by_cases hl : l = .epsilon
          · subst hl
            obtain rfl := ha.epsilon_start r h
            rw [ha.eq_nil_of_path_fin rest]
            exact Path.epsilon (epsilon_start_optional a) .refl
          · refine Path.step ?_ (rest.mono_of_ne_start ha (fun s l t hs hst => ?_) (ha.ne_start h))
            · rw [target_optional_of_ne (fun e => hl e.2), h]
            · rw [heq s l hs, hst]

/-! ## At least once -/

/-- The state where a round ends and the next one may begin. -/
def again (n : Nat) : State := .id (n + 1)

/-- The table turned back upon itself, **which has to run**. -/
def looped (n : Nat) (a : Automaton) : Automaton :=
  ((a.moveEnd (again n)).insertAll
    (edgesAt (again n) ((a.moveEnd (again n)).leaving .start))).insert (again n) .epsilon .fin

/-- At least once is the table turned back upon itself, made optional if the table may
be empty. No edge is recorded as lost. -/
theorem plus_eq (n : Nat) (a : Automaton) : plus n a =
    ⟨if (a.epsilon .start).isSome then (looped n a).optional else looped n a, n + 1, []⟩ := rfl

/-- Any number of times is the same, made optional in any case. -/
theorem kleene_eq (n : Nat) (a : Automaton) :
    kleene n a = ⟨(plus n a).automaton.optional, n + 1, []⟩ := rfl

/-- The **edges** of a table turned back upon itself. -/
inductive LoopEdge (n : Nat) (a : Automaton) : State → Label → State → Prop
  /-- An edge of the table. -/
  | left {s t : State} {l : Label} (h : (a.moveEnd (again n)).target s l = some t) :
      LoopEdge n a s l t
  /-- An edge that opens the table, and the next round. -/
  | again {t : State} {x : Token} (h : (a.moveEnd (again n)).target .start (.token x) = some t) :
      LoopEdge n a (Automaton.again n) (.token x) t
  /-- The edge that ends the rounds. -/
  | ends : LoopEdge n a (Automaton.again n) .epsilon .fin

theorem again_ne_start : again n ≠ .start := State.noConfusion

theorem again_ne_fin : again n ≠ .fin := State.noConfusion

/-- The state where rounds end is new to the table. Its number is the next one that the
session draws. -/
theorem again_notMem (hw : a.Within n) : again n ∉ a.states := hw.notMem (Nat.lt_succ_self n)

/-- The edges of a table turned back upon itself are **those of three kinds**, and all
of them. They are those of the table with its end moved, the first edges once more from
where a round ends, and the edge out of the rounds. -/
theorem target_looped (hw : a.Within n) :
    (looped n a).target s l = some t ↔ LoopEdge n a s l t := by
  have hagree : Edge.Agree (edgesAt (again n) ((a.moveEnd (again n)).leaving .start)) :=
    Edge.agree_of_eq_some (fun _ l => (a.moveEnd (again n)).target .start l)
      fun e he => ((mem_edgesAt_leaving_iff _ _ _ e).mp he).2
  have hleft : ∀ l, (a.moveEnd (again n)).target (again n) l = none :=
    target_moveEnd_end (again_notMem hw)
  -- the row that is copied has no epsilon edge, so it does not collide with the one that
  -- ends the rounds
  have hnone : (a.moveEnd (again n)).target .start .epsilon = none := epsilon_start_moveEnd a _
  unfold looped
  rw [target_insert]
  by_cases hsl : again n = s ∧ Label.epsilon = l
  · obtain ⟨rfl, rfl⟩ := hsl
    rw [if_pos ⟨rfl, rfl⟩]
    constructor
    · intro h
      obtain rfl := Option.some.inj h
      exact .ends
    · rintro (h | _)
      · rw [hleft] at h
        exact absurd h (by simp)
      · rfl
  · rw [if_neg hsl, target_insertAll hagree]
    simp only [mem_edgesAt_leaving_iff]
    constructor
    · rintro (⟨rfl, h⟩ | ⟨-, h⟩)
      · cases l with
        | epsilon => exact absurd ⟨rfl, rfl⟩ hsl
        | token x => exact .again h
      · exact .left h
    · rintro (h | h | _)
      · refine .inr ⟨?_, h⟩
        rintro t' ⟨rfl, -⟩
        rw [hleft] at h
        exact absurd h (by simp)
      · exact .inl ⟨rfl, h⟩
      · exact absurd ⟨rfl, rfl⟩ hsl

/-- What leaves the state where a round ends opens the table **or ends the rounds**.
Which of the two it is can be read off the label. -/
theorem target_looped_again (hw : a.Within n) (h : (looped n a).target (again n) l = some t) :
    (l = .epsilon ∧ t = .fin) ∨
      l ≠ .epsilon ∧ (a.moveEnd (again n)).target .start l = some t := by
  generalize hs : again n = s at h
  rcases (target_looped hw).mp h with h | h | _
  · rw [← hs] at h
    exact absurd (source_mem_of_moveEnd h) (again_notMem hw)
  · exact .inr ⟨by simp, hs ▸ h⟩
  · exact .inl ⟨rfl, rfl⟩

/-- Away from that state the edges are those of the table. -/
theorem target_looped_of_ne (hw : a.Within n) (hs : s ≠ again n) :
    (looped n a).target s l = some t ↔ (a.moveEnd (again n)).target s l = some t := by
  rw [target_looped hw]
  constructor
  · rintro (h | _ | _)
    · exact h
    all_goals exact absurd rfl hs
  · exact .left

/-! ### The rules -/

/-- Moving the end to the state where rounds end lets no edge into `start`. -/
theorem ne_start_of_moveEnd (ha : a.WellFormed)
    (h : (a.moveEnd (again n)).target s l = some t) : t ≠ .start := by
  obtain ⟨-, t₀, ht₀, rfl⟩ := target_moveEnd.mp h
  by_cases hfin : t₀ = .fin
  · rw [if_pos hfin]
    exact again_ne_start
  · rw [if_neg hfin]
    exact ha.ne_start ht₀

/-- A table turned back upon itself **keeps the rules**. What is added starts at a
numbered state, so the rule on epsilon edges of `start` is not concerned. -/
theorem WellFormed.looped (ha : a.WellFormed) (hw : a.Within n) :
    (Automaton.looped n a).WellFormed := by
  have hfin : ∀ l, (Automaton.looped n a).target .fin l = none := by
    intro l
    rw [Option.eq_none_iff_forall_ne_some]
    intro t h
    rw [target_looped_of_ne hw again_ne_fin.symm] at h
    obtain ⟨-, t₀, ht₀, -⟩ := target_moveEnd.mp h
    exact ha.ne_fin ht₀ rfl
  have hagain : (Automaton.looped n a).Halts (again n) := by
    refine Acc.intro _ fun q hq => ?_
    rcases target_looped_again hw hq with ⟨-, rfl⟩ | ⟨hcontra, -⟩
    · exact halts_of_epsilon_eq_none (hfin .epsilon)
    · exact absurd rfl hcontra
  refine ⟨?_, hfin, ?_, ?_⟩
  · intro s l h
    rcases (target_looped hw).mp h with h | h
    · exact ne_start_of_moveEnd ha h rfl
    · exact ne_start_of_moveEnd ha h rfl
  · intro t h
    rw [epsilon, target_looped_of_ne hw again_ne_start.symm] at h
    exact absurd ⟨rfl, rfl⟩ (target_moveEnd.mp h).1
  · -- along the chain of the table, until it comes to the end of a round
    intro s
    induction ha.halts s with
    | intro s _ ih =>
        by_cases hs : s = again n
        · rw [hs]
          exact hagain
        · refine Acc.intro s fun q hq => ?_
          obtain ⟨-, t₀, ht₀, rfl⟩ := target_moveEnd.mp ((target_looped_of_ne hw hs).mp hq)
          by_cases htfin : t₀ = .fin
          · rw [if_pos htfin]
            exact hagain
          · rw [if_neg htfin]
            exact ih t₀ ht₀

theorem within_looped (hw : a.Within n) : (looped n a).Within (n + 1) := by
  have hleft : ∀ s l t, (a.moveEnd (again n)).target s l = some t →
      ∀ k, t = .id k → k ≤ n + 1 := by
    rintro s l t h k rfl
    rcases target_mem_of_moveEnd h with heq | ⟨hmem, -⟩
    · rw [again, State.id.injEq] at heq
      omega
    · exact Nat.le_succ_of_le (hw k hmem)
  have hagain : ∀ k, again n = .id k → k ≤ n + 1 := by
    intro k hk
    rw [again, State.id.injEq] at hk
    omega
  refine Within.of_edges fun s l t h => ?_
  rcases (target_looped hw).mp h with h | h | _
  · refine ⟨?_, hleft _ _ _ h⟩
    rintro k rfl
    exact Nat.le_succ_of_le (hw k (source_mem_of_moveEnd h))
  · exact ⟨hagain, hleft _ _ _ h⟩
  · exact ⟨hagain, fun k hk => absurd hk (by simp)⟩

/-- At least once is a table turned back upon itself, and **need not run** if the
table may be empty. The two cases share everything but the edge that makes the
result optional. -/
theorem plus_induction {motive : Automaton → Prop} (n : Nat) (a : Automaton)
    (hnull : (a.epsilon .start).isSome = true → motive (looped n a).optional)
    (hrun : (a.epsilon .start).isSome = false → motive (looped n a)) :
    motive (plus n a).automaton := by
  rw [plus_eq]
  cases h : (a.epsilon .start).isSome with
  | true => exact hnull h
  | false => exact hrun h

theorem WellFormed.plus (ha : a.WellFormed) (hw : a.Within n) :
    (Automaton.plus n a).automaton.WellFormed :=
  plus_induction n a (fun _ => (ha.looped hw).optional) fun _ => ha.looped hw

/-- The result is within the number that was drawn last. -/
theorem within_plus (hw : a.Within n) : (plus n a).automaton.Within (plus n a).drawn :=
  plus_induction n a (fun _ => (within_looped hw).optional) fun _ => within_looped hw

/-- The table turned back upon itself is not empty of itself; that is put in afterwards
if the table was. -/
theorem epsilon_start_looped (hw : a.Within n) : (looped n a).epsilon .start = none := by
  rw [Option.eq_none_iff_forall_ne_some]
  intro t h
  rw [epsilon, target_looped_of_ne hw again_ne_start.symm] at h
  exact absurd ⟨rfl, rfl⟩ (target_moveEnd.mp h).1

/-- The result may be empty exactly when the table may be. -/
theorem epsilon_start_plus (hw : a.Within n) :
    ((plus n a).automaton.epsilon .start).isSome = (a.epsilon .start).isSome := by
  refine plus_induction (motive := fun b =>
    (b.epsilon .start).isSome = (a.epsilon .start).isSome) n a (fun h => ?_) fun h => ?_
  · rw [epsilon_start_optional, Option.isSome_some, h]
  · rw [epsilon_start_looped hw, Option.isSome_none, h]

/-! ### Words -/

/-- What is left to read from a state: where a round has ended any number of rounds, and
within a round its rest **and then any number of rounds**. -/
structure LoopRest (n : Nat) (a : Automaton) (s : State) (w : List Token) : Prop where
  fin : s = .fin → w = []
  again : s = again n → w ∈ a.spelled∗
  left : s ≠ .fin → s ∈ a.states → ∃ u v, w = u ++ v ∧ a.Path .fin s u ∧ v ∈ a.spelled∗

/-- A path to `fin` **is such a rest**, by induction from its end: each edge is followed
by the rest of its round, and rounds are followed by rounds. -/
theorem loopRest_of_path (ha : a.WellFormed) (hw : a.Within n) (p : (looped n a).Path .fin s w) :
    LoopRest n a s w := by
  induction p with
  | refl => exact ⟨fun _ => rfl, fun h => absurd h.symm again_ne_fin, fun h => absurd rfl h⟩
  | @step s r l w h _ ih =>
      -- an edge of the table is followed by the rest of its round
      have hround : ∀ s, (a.moveEnd (again n)).target s l = some r →
          ∃ u v, l.word ++ w = u ++ v ∧ a.Path .fin s u ∧ v ∈ a.spelled∗ := by
        intro s h
        obtain ⟨-, t₀, ht₀, rfl⟩ := target_moveEnd.mp h
        by_cases hfin : t₀ = .fin
        · subst hfin
          have hpath : a.Path .fin s (l.word ++ []) := .step ht₀ .refl
          rw [List.append_nil] at hpath
          exact ⟨l.word, w, rfl, hpath, ih.again (if_pos rfl)⟩
        · rw [if_neg hfin] at ih
          obtain ⟨u, v, rfl, hu, hv⟩ := ih.left hfin (target_mem_states ht₀)
          exact ⟨l.word ++ u, v, (List.append_assoc ..).symm, .step ht₀ hu, hv⟩
      refine ⟨?_, ?_, ?_⟩
      · rintro rfl
        exact absurd rfl ((ha.looped hw).ne_fin h)
      · rintro rfl
        rcases target_looped_again hw h with ⟨rfl, rfl⟩ | ⟨-, h⟩
        · rw [ih.fin rfl]
          exact Language.nil_mem_kstar a.spelled
        · obtain ⟨u, v, heq, hu, hv⟩ := hround .start h
          rw [heq]
          have hstar : a.spelled * a.spelled∗ ≤ a.spelled∗ := mul_kstar_le_kstar
          exact hstar (Language.append_mem_mul hu hv)
      · intro _ hmem
        have hs : s ≠ Automaton.again n := by
          rintro rfl
          exact again_notMem hw hmem
        exact hround s ((target_looped_of_ne hw hs).mp h)

theorem spelled_looped_le (ha : a.WellFormed) (hw : a.Within n) :
    (looped n a).spelled ≤ a.spelled * a.spelled∗ := by
  intro w hpath
  obtain ⟨u, v, rfl, hu, hv⟩ := (loopRest_of_path ha hw hpath).left (by simp) (start_mem_states a)
  exact Language.append_mem_mul hu hv

/-- A path in the table, with its end moved, is a path in the one that is
turned back. -/
theorem path_looped_left (hw : a.Within n) {goal : State}
    (p : (a.moveEnd (again n)).Path goal s w) : (looped n a).Path goal s w :=
  p.mono fun _ _ _ h => (target_looped hw).mpr (.left h)

/-- Where a round has ended, **any number of rounds** may follow. By induction on the
number of rounds, each of which starts with a copied first edge. -/
theorem path_looped_again (ha : a.WellFormed) (hw : a.Within n) (h : w ∈ a.spelled∗) :
    (looped n a).Path .fin (again n) w := by
  obtain ⟨rounds, rfl, hrounds⟩ := Language.mem_kstar.mp h
  clear h
  induction rounds with
  | nil => exact Path.epsilon ((target_looped hw).mpr .ends) .refl
  | cons u rounds ih =>
      have hrest := ih fun v hv => hrounds v (List.mem_cons_of_mem u hv)
      rw [List.flatten_cons]
      -- an empty round is left out; any other begins with an edge that `again` has from `start`
      rcases path_start_moveEnd (q := again n) ha (hrounds u List.mem_cons_self) with
        ⟨rfl, -⟩ | hround
      · exact hrest
      · cases hround with
        | @step _ r l u' hst hround =>
            rw [List.append_assoc]
            cases l with
            | epsilon => exact absurd ⟨rfl, rfl⟩ (target_moveEnd.mp hst).1
            | token x =>
                exact .step ((target_looped hw).mpr (.again hst))
                  ((path_looped_left hw hround).append hrest)

/-- Conversely **any number of rounds after the first** are spelled. Empty rounds have
no path of their own where the epsilon edge was taken away; they are left out. -/
theorem mul_kstar_le_spelled_plus (ha : a.WellFormed) (hw : a.Within n) :
    a.spelled * a.spelled∗ ≤ (plus n a).automaton.spelled := by
  have hround : ∀ u v, (a.moveEnd (again n)).Path (again n) .start u → v ∈ a.spelled∗ →
      u ++ v ∈ (looped n a).spelled :=
    fun u v hu hv => (path_looped_left hw hu).append (path_looped_again ha hw hv)
  have hle : (looped n a).spelled ≤ (plus n a).automaton.spelled := by
    refine plus_induction (motive := fun b => (looped n a).spelled ≤ b.spelled) n a
      (fun _ => ?_) fun _ => le_refl _
    rw [spelled_optional (ha.looped hw)]
    exact le_add_of_nonneg_left zero_le
  -- a first round that is empty is left out
  have hempty : a.epsilon .start = some .fin → a.spelled∗ ≤ (plus n a).automaton.spelled := by
    intro heps v hv
    obtain ⟨rounds, rfl, hrounds⟩ := Language.mem_kstar.mp hv
    clear hv
    induction rounds with
    | nil =>
        have hnull := epsilon_start_plus hw
        rw [heps] at hnull
        exact (ha.plus hw).nil_mem_spelled.mpr hnull
    | cons u rounds ih =>
        have hrest : ∀ v ∈ rounds, v ∈ a.spelled :=
          fun v hv => hrounds v (List.mem_cons_of_mem u hv)
        rw [List.flatten_cons]
        rcases path_start_moveEnd (q := again n) ha (hrounds u List.mem_cons_self) with
          ⟨rfl, -⟩ | hu
        · exact ih hrest
        · exact hle (hround u _ hu (Language.mem_kstar.mpr ⟨rounds, rfl, hrest⟩))
  rintro w ⟨u, hu, v, hv, rfl⟩
  rcases path_start_moveEnd (q := again n) ha hu with ⟨rfl, heps⟩ | hu
  · exact hempty heps hv
  · exact hle (hround u v hu hv)

/-- At least once spells **one round, and then any number of rounds**. One inclusion
puts rounds together, the other cuts a path wherever it comes to the state between
two rounds. -/
theorem spelled_plus (ha : a.WellFormed) (hw : a.Within n) :
    (plus n a).automaton.spelled = a.spelled * a.spelled∗ := by
  refine le_antisymm ?_ (mul_kstar_le_spelled_plus ha hw)
  refine plus_induction (motive := fun b => b.spelled ≤ a.spelled * a.spelled∗) n a
    (fun hnull => ?_) fun _ => spelled_looped_le ha hw
  rw [spelled_optional (ha.looped hw)]
  refine add_le ?_ (spelled_looped_le ha hw)
  intro w hnil
  rw [(Language.mem_one w).mp hnil]
  exact Language.append_mem_mul (ha.nil_mem_spelled.mpr hnull) (Language.nil_mem_kstar _)

/-! ### Chains -/

/-- Where the chain of a state leads in a table turned back upon itself. It stays within
a round, comes to where the round ends, or leaves the rounds there. -/
theorem passes_looped (ha : a.WellFormed) (hw : a.Within n) (h : (looped n a).Passes s r) :
    a.Passes s r ∨ (r = again n ∧ s ≠ .start ∧ s ≠ .fin ∧ a.Passes s .fin) ∨
      (s = again n ∧ (r = again n ∨ r = .fin)) := by
  have hlooped := ha.looped hw
  induction h with
  | refl => exact .inl (a.passes_refl s)
  | @tail r q _ hstep ih =>
      rcases ih with hp | ⟨rfl, hs, hfin, hp⟩ | ⟨hs, hr⟩
      · -- still within the round: the edge leads on in it, or ends it
        by_cases hr : r = again n
        · subst hr
          have hs := eq_of_passes_notMem hp (again_notMem hw)
          rcases target_looped_again hw hstep with ⟨-, hq⟩ | ⟨hcontra, -⟩
          · exact .inr (.inr ⟨hs, .inr hq⟩)
          · exact absurd rfl hcontra
        · obtain ⟨hrstart, t₀, ht₀, rfl⟩ :=
            target_moveEnd.mp ((target_looped_of_ne hw hr).mp hstep)
          by_cases htfin : t₀ = .fin
          · subst htfin
            rw [if_pos rfl]
            have hs : s ≠ .start := by
              rintro rfl
              rcases ha.eq_of_passes_start hp with rfl | ⟨rfl, -⟩
              · exact hrstart ⟨rfl, rfl⟩
              · exact ha.ne_fin ht₀ rfl
            have hsfin : s ≠ .fin := by
              rintro rfl
              exact ha.ne_fin ht₀ (ha.eq_of_passes_fin hp)
            exact .inr (.inl ⟨rfl, hs, hsfin, hp.tail ht₀⟩)
          · rw [if_neg htfin]
            exact .inl (hp.tail ht₀)
      · -- the round has ended: the one epsilon edge ends all of them
        rcases target_looped_again hw hstep with ⟨-, rfl⟩ | ⟨hcontra, -⟩
        · exact .inl hp
        · exact absurd rfl hcontra
      · rcases hr with rfl | rfl
        · rcases target_looped_again hw hstep with ⟨-, rfl⟩ | ⟨hcontra, -⟩
          · exact .inr (.inr ⟨hs, .inr rfl⟩)
          · exact absurd rfl hcontra
        · exact absurd rfl (hlooped.ne_fin hstep)

/-- What a chain offers is offered within the round, **or opens the next one**. Offers
of the second kind are where a clash between a round and the next one shows. -/
theorem offer_of_looped (ha : a.WellFormed) (hw : a.Within n) (hp : (looped n a).Passes s r)
    (h : (looped n a).target r (.token x) = some t) :
    (a.Passes s r ∧ (a.moveEnd (again n)).target r (.token x) = some t) ∨
      ((s = again n ∨ s ≠ .start ∧ s ≠ .fin ∧ a.Passes s .fin) ∧
        (a.moveEnd (again n)).target .start (.token x) = some t) := by
  have hnext : (looped n a).target (again n) (.token x) = some t →
      (a.moveEnd (again n)).target .start (.token x) = some t := by
    intro h
    rcases target_looped_again hw h with ⟨hcontra, -⟩ | ⟨-, h⟩
    · exact absurd hcontra (by simp)
    · exact h
  rcases passes_looped ha hw hp with hp | ⟨rfl, hs⟩ | ⟨hs, rfl | rfl⟩
  · by_cases hr : r = again n
    · subst hr
      exact .inr ⟨.inl (eq_of_passes_notMem hp (again_notMem hw)), hnext h⟩
    · exact .inl ⟨hp, (target_looped_of_ne hw hr).mp h⟩
  · exact .inr ⟨.inr hs, hnext h⟩
  · exact .inr ⟨.inl hs, hnext h⟩
  · exact absurd rfl ((ha.looped hw).ne_fin h)

end TreeGrammar.Automaton
