/-
One table or the other.

`merge` puts the edges of the second table in after those of the first. The two have no
numbered state in common, so the second loses an edge at `start` alone. Away from
`start` a chain or a path of the union is one of the first table or one of the second;
and the union spells what the two spell, less the words whose first edge was lost.
-/
import TreeGrammar.Proofs.Automaton.Bisimulation

set_option autoImplicit false

namespace TreeGrammar.Automaton

/-- The edges of `a`, and those of `c` **where `a` has none**. -/
def union (a c : Automaton) : Automaton := (a.insertAllKeeping c.edges).1

/-- The tables have no numbered state in common. -/
def Disjoint (a c : Automaton) : Prop := ∀ k, State.id k ∈ a.states → State.id k ∉ c.states

variable {n : Nat} {a b c : Automaton} {s r t : State} {l : Label} {x : Token} {w : List Token}

/-- The merge is the union of the first table and what is put beside it. What it loses
is what the union loses. -/
theorem merge_eq (n : Nat) (a b : Automaton) :
    merge n a b = ⟨a.union (apart n a b).automaton, (apart n a b).drawn,
      (a.insertAllKeeping (apart n a b).automaton.edges).2⟩ := rfl

/-- What is put beside a table has no number of it, which is the hypothesis of
everything said about unions. -/
theorem disjoint_apart (b : Automaton) (ha : a.Within n) : a.Disjoint (apart n a b).automaton :=
  fun _ hk => apart_disjoint a b ha hk

/-- The edges of a union: those of the first table, and those of the second **whose
place is free**. -/
theorem target_union : (a.union c).target s l = some t ↔
    a.target s l = some t ∨ a.target s l = none ∧ c.target s l = some t := by
  unfold union
  rw [target_insertAllKeeping (agree_edges c), mem_edges_iff]

/-- Having no number in common does not depend on the order. -/
theorem Disjoint.symm (h : a.Disjoint c) : c.Disjoint a := fun k hk hk' => h k hk' hk

/-- A state that the first table leaves and the second one knows is `start`. Apart from
`start` and `fin` they have no state in common, and `fin` is left by nothing. -/
theorem Disjoint.eq_start (h : a.Disjoint c) (ha : a.WellFormed) (hst : a.target s l = some t)
    (hs : s ∈ c.states) : s = .start := by
  cases s with
  | start => rfl
  | fin => exact absurd rfl (ha.ne_fin hst)
  | id k => exact absurd hs (h k (source_mem_states hst))

/-- A chain of the first table at whose end the second one has an edge has **not
moved**. If it had moved, it would have been entered in the first table, which `start`
never is. -/
theorem Disjoint.eq_of_passes (hd : a.Disjoint c) (ha : a.WellFormed) (hc : c.WellFormed)
    (hp : a.Passes s r) (h : c.target r l = some t) : s = r := by
  rcases Relation.ReflTransGen.cases_tail hp with heq | ⟨q, -, hq⟩
  · exact heq.symm
  · exact absurd (hd.symm.eq_start hc h (target_mem_states hq)) (ha.ne_start hq)

/-- Only at `start` do chains of both tables meet edges. Everywhere else a chain belongs
to one of them, and its edges do not compete with those of the other. -/
theorem Disjoint.eq_start_of_passes (hd : a.Disjoint c) (ha : a.WellFormed)
    {r' t' : State} {l' : Label} (hp : a.Passes s r) (h : a.target r l = some t)
    (hp' : c.Passes s r') (h' : c.target r' l' = some t') : s = .start := by
  obtain ⟨_, _, hst⟩ := exists_target_of_passes hp h
  obtain ⟨_, _, hst'⟩ := exists_target_of_passes hp' h'
  exact hd.eq_start ha hst (source_mem_states hst')

/-! ## The rules -/

/-- In a table with the edges of both, a chain that has left `start` **stays on its
side**. So it comes to an end there. Which edges of the two were put in does not matter,
and no precedence is spoken of. -/
theorem Disjoint.halts {u : Automaton} (hd : a.Disjoint c) (ha : a.WellFormed) (hc : c.WellFormed)
    (hu : ∀ s l t, u.target s l = some t → a.target s l = some t ∨ c.target s l = some t)
    (hmem : s ∈ a.states) (hs : s ≠ .start) : u.Halts s := by
  induction ha.halts s with
  | intro s _ ih =>
      refine Acc.intro s fun q hq => ?_
      rcases hu _ _ _ hq with h | h
      · exact ih q h (target_mem_states h) (ha.ne_start h)
      · exact absurd (hd.symm.eq_start hc h hmem) hs

/-- The union of two tables **keeps the rules**. Each edge is one of the tables', so the
rules on single edges carry over; for chains the first edge decides on a side. -/
theorem WellFormed.union (ha : a.WellFormed) (hc : c.WellFormed) (hd : a.Disjoint c) :
    (a.union c).WellFormed := by
  have hedge : ∀ s l t, (a.union c).target s l = some t → a.target s l = some t ∨
      c.target s l = some t :=
    fun _ _ _ h => (target_union.mp h).imp_right And.right
  refine ⟨?_, ?_, ?_, ?_⟩
  · intro s l h
    rcases target_union.mp h with h | ⟨-, h⟩
    · exact ha.target_ne_start s l h
    · exact hc.target_ne_start s l h
  · intro l
    rw [Option.eq_none_iff_forall_ne_some]
    intro t h
    rcases target_union.mp h with h | ⟨-, h⟩
    · exact ha.ne_fin h rfl
    · exact hc.ne_fin h rfl
  · intro t h
    rcases target_union.mp h with h | ⟨-, h⟩
    · exact ha.epsilon_start t h
    · exact hc.epsilon_start t h
  · -- the first edge of a chain takes it to one side
    intro s
    refine Acc.intro s fun q hq => ?_
    rcases hedge _ _ _ hq with h | h
    · exact hd.halts ha hc hedge (target_mem_states h) (ha.ne_start h)
    · exact hd.symm.halts hc ha (fun s l t h => (hedge s l t h).symm) (target_mem_states h)
        (hc.ne_start h)

/-- A union has no numbers but those of the two tables. -/
theorem Within.union (ha : a.Within n) (hc : c.Within n) : (a.union c).Within n := by
  refine Within.of_edges fun s l t h => ?_
  rcases target_union.mp h with h | ⟨-, h⟩
  · refine ⟨?_, ?_⟩
    · rintro k rfl
      exact ha k (source_mem_states h)
    · rintro k rfl
      exact ha k (target_mem_states h)
  · refine ⟨?_, ?_⟩
    · rintro k rfl
      exact hc k (source_mem_states h)
    · rintro k rfl
      exact hc k (target_mem_states h)

/-- The union may be empty **exactly when one of the tables may be**. Both epsilon edges
would enter `fin`, so here a place that is taken costs nothing. -/
theorem epsilon_start_union : ((a.union c).epsilon .start).isSome = true ↔
    (a.epsilon .start).isSome = true ∨ (c.epsilon .start).isSome = true := by
  simp only [Option.isSome_iff_exists]
  constructor
  · rintro ⟨t, h⟩
    rcases target_union.mp h with h | ⟨-, h⟩
    · exact .inl ⟨t, h⟩
    · exact .inr ⟨t, h⟩
  · intro h
    cases hstart : a.epsilon .start with
    | some t => exact ⟨t, target_union.mpr (.inl hstart)⟩
    | none =>
        rcases h with ⟨t, ht⟩ | ⟨t, ht⟩
        · rw [hstart] at ht
          exact absurd ht (by simp)
        · exact ⟨t, target_union.mpr (.inr ⟨hstart, ht⟩)⟩

/-! ## Chains -/

/-- A chain of the union is a chain **of one of the tables**. The one place where it
could change over is `start`, and there it has not begun. -/
theorem passes_union (ha : a.WellFormed) (hc : c.WellFormed) (hd : a.Disjoint c)
    (h : (a.union c).Passes s r) : a.Passes s r ∨ c.Passes s r := by
  induction h with
  | refl => exact .inl (a.passes_refl s)
  | @tail r q _ hstep ih =>
      -- an edge of the other table can only be the first one of the chain
      rcases ih with hp | hp
      · rcases target_union.mp hstep with h | ⟨-, h⟩
        · exact .inl (hp.tail h)
        · rw [hd.eq_of_passes ha hc hp h]
          exact .inr ((c.passes_refl q).head h)
      · rcases target_union.mp hstep with h | ⟨-, h⟩
        · rw [hd.symm.eq_of_passes hc ha hp h]
          exact .inl ((a.passes_refl q).head h)
        · exact .inr (hp.tail h)

/-- What a chain of the union offers, a chain of one of the tables offers. With this,
what the union does with a token is a matter of the two tables. -/
theorem offer_union (ha : a.WellFormed) (hc : c.WellFormed) (hd : a.Disjoint c)
    (hp : (a.union c).Passes s r) (h : (a.union c).target r (.token x) = some t) :
    (∃ q, a.Passes s q ∧ a.target q (.token x) = some t) ∨
      ∃ q, c.Passes s q ∧ c.target q (.token x) = some t := by
  rcases passes_union ha hc hd hp with hp | hp
  · rcases target_union.mp h with h | ⟨-, h⟩
    · exact .inl ⟨r, hp, h⟩
    · rw [hd.eq_of_passes ha hc hp h]
      exact .inr ⟨r, c.passes_refl r, h⟩
  · rcases target_union.mp h with h | ⟨-, h⟩
    · rw [hd.symm.eq_of_passes hc ha hp h]
      exact .inl ⟨r, a.passes_refl r, h⟩
    · exact .inr ⟨r, hp, h⟩

/-- The union has **no shadowed edges** if the tables have none. Two edges for one token
are on chains of one table, or at `start`, and there only one of them was kept. -/
theorem Coherent.union (ha : a.WellFormed) (hc : c.WellFormed) (hd : a.Disjoint c)
    (hca : a.Coherent) (hcc : c.Coherent) : (a.union c).Coherent := by
  intro s r r' x t t' hr hr' ht ht'
  by_cases hs : s = .start
  · -- what takes a token on the chain of `start` is `start`, and it has one edge for the token
    subst hs
    have hunion := ha.union hc hd
    have heq : ∀ q t, (a.union c).Passes .start q → (a.union c).target q (.token x) = some t →
        q = .start := by
      intro q t hq hqt
      rcases hunion.eq_of_passes_start hq with heq | ⟨rfl, -⟩
      · exact heq
      · exact absurd rfl (hunion.ne_fin hqt)
    rw [heq r t hr ht] at ht
    rw [heq r' t' hr' ht'] at ht'
    exact Option.some.inj (ht.symm.trans ht')
  · rcases offer_union ha hc hd hr ht with ⟨q, hq, h⟩ | ⟨q, hq, h⟩
    · rcases offer_union ha hc hd hr' ht' with ⟨q', hq', h'⟩ | ⟨q', hq', h'⟩
      · exact hca s q q' x t t' hq hq' h h'
      · exact absurd (hd.eq_start_of_passes ha hq h hq' h') hs
    · rcases offer_union ha hc hd hr' ht' with ⟨q', hq', h'⟩ | ⟨q', hq', h'⟩
      · exact absurd (hd.eq_start_of_passes ha hq' h' hq h) hs
      · exact hcc s q q' x t t' hq hq' h h'

/-! ## Losses -/

/-- **What is lost**: the edges for the tokens that open both tables with
different targets. -/
theorem mem_collisions_union_iff (ha : a.WellFormed) (hc : c.WellFormed) (hd : a.Disjoint c)
    (e : Collision) : e ∈ (a.insertAllKeeping c.edges).2 ↔ e.state = .start ∧
      ∃ x, e.label = .token x ∧
        a.target .start (.token x) = some e.kept ∧ c.target .start (.token x) = some e.dropped ∧
        e.kept ≠ e.dropped := by
  rw [collisions_insertAllKeeping (agree_edges c), List.mem_filterMap]
  constructor
  · rintro ⟨⟨s, l, t⟩, hmem, hclash⟩
    obtain ⟨hs, hl, ht, hkept, hne⟩ := clash_eq_some_iff.mp hclash
    have hct := (mem_edges_iff _ _).mp hmem
    -- both tables have an edge there, so it leaves `start`, and the epsilon edges of
    -- `start` agree
    obtain rfl := hd.eq_start ha hkept (source_mem_states hct)
    cases l with
    | epsilon =>
        have hfin := (ha.epsilon_start _ hkept).trans (hc.epsilon_start _ hct).symm
        exact absurd (hfin.trans ht.symm) hne
    | token x => exact ⟨hs, x, hl, hkept, ht ▸ hct, hne⟩
  · rintro ⟨hs, x, hl, hkept, hdropped, hne⟩
    exact ⟨⟨.start, .token x, e.dropped⟩, (mem_edges_iff _ _).mpr hdropped,
      clash_eq_some_iff.mpr ⟨hs, hl, rfl, hkept, hne⟩⟩

/-- **No token is lost twice.** A warning for each lost edge is thus a warning for each
lost token. -/
theorem nodup_labels_collisions_union (ha : a.WellFormed) (hd : a.Disjoint c) :
    ((a.insertAllKeeping c.edges).2.map Collision.label).Nodup := by
  rw [collisions_insertAllKeeping (agree_edges c)]
  refine List.pairwise_map.mpr
    (List.pairwise_filterMap.mpr (List.Pairwise.imp_of_mem ?_ c.pairwise_edges))
  intro e e' he he' hkeys k hk k' hk'
  obtain ⟨-, hl, -, hkept, -⟩ := clash_eq_some_iff.mp hk
  obtain ⟨-, hl', -, hkept', -⟩ := clash_eq_some_iff.mp hk'
  have hstart := hd.eq_start ha hkept (source_mem_states ((mem_edges_iff _ _).mp he))
  have hstart' := hd.eq_start ha hkept' (source_mem_states ((mem_edges_iff _ _).mp he'))
  rw [hl, hl']
  exact hkeys (hstart.trans hstart'.symm)

/-- The edges that open the second table find their place at `start`, or find
themselves there. -/
def MergesFreely (a c : Automaton) : Prop :=
  ∀ x t, c.target .start (.token x) = some t →
    a.target .start (.token x) = none ∨ a.target .start (.token x) = some t

/-- No edge is lost exactly when those that open the second table **find their place**.
That is, where no token opens both tables, or where it enters the same state in both. -/
theorem union_collisions (ha : a.WellFormed) (hc : c.WellFormed) (hd : a.Disjoint c) :
    (a.insertAllKeeping c.edges).2 = [] ↔ a.MergesFreely c := by
  rw [List.eq_nil_iff_forall_not_mem]
  constructor
  · intro h x t ht
    cases hl : a.target .start (.token x) with
    | none => exact .inl rfl
    | some t' =>
        right
        by_contra hne
        have hlost : t' ≠ t := fun heq => hne (congrArg some heq)
        exact h ⟨.start, .token x, t', t⟩
          ((mem_collisions_union_iff ha hc hd _).mpr ⟨rfl, x, rfl, hl, ht, hlost⟩)
  · rintro h e he
    obtain ⟨-, x, -, hkept, hdropped, hne⟩ := (mem_collisions_union_iff ha hc hd e).mp he
    rcases h x e.dropped hdropped with hnone | hsome
    · exact absurd (hnone.symm.trans hkept) (by simp)
    · exact hne (Option.some.inj (hkept.symm.trans hsome))

/-! ## Words -/

/-- A path from a state that one table enters to `fin` **stays in that table**. The
two share `fin` alone among the states that edges enter, and from there the path
goes nowhere. -/
theorem Disjoint.path (hd : a.Disjoint c) (ha : a.WellFormed) (hc : c.WellFormed)
    (hst : a.target s l = some t) (p : c.Path .fin t w) : a.Path .fin t w := by
  cases p with
  | refl => exact .refl
  | step h _ =>
      have hmem := target_mem_states hst
      exact absurd (hd.symm.eq_start hc h hmem) (ha.ne_start hst)

/-- What the union spells, **one of the tables spells**. Nothing is spelled that begins
in one table and ends in the other. -/
theorem spelled_union_le (ha : a.WellFormed) (hc : c.WellFormed) (hd : a.Disjoint c) :
    (a.union c).spelled ≤ a.spelled + c.spelled := by
  have hpath : ∀ s w, (a.union c).Path .fin s w → a.Path .fin s w ∨ c.Path .fin s w := by
    intro s w p
    induction p with
    | refl => exact .inl .refl
    | step h _ ih =>
        rcases target_union.mp h with h | ⟨-, h⟩
        · rcases ih with hrest | hrest
          · exact .inl (.step h hrest)
          · exact .inl (.step h (hd.path ha hc h hrest))
        · rcases ih with hrest | hrest
          · exact .inr (.step h (hd.symm.path hc ha h hrest))
          · exact .inr (.step h hrest)
  intro w hw
  exact (Language.mem_add _ _ w).mpr (hpath _ _ hw)

/-- Without a loss, the union spells **what either table spells**. All edges at `start`
are there then, and elsewhere none can be lost. -/
theorem spelled_union (ha : a.WellFormed) (hc : c.WellFormed) (hd : a.Disjoint c)
    (hfree : (a.insertAllKeeping c.edges).2 = []) :
    (a.union c).spelled = a.spelled + c.spelled := by
  refine le_antisymm (spelled_union_le ha hc hd) ?_
  -- nothing is lost, so the edges of both are there
  have hkept : ∀ s l t, c.target s l = some t → (a.union c).target s l = some t := by
    intro s l t h
    rcases (insertAllKeeping_collisions (agree_edges c) a).mp hfree ⟨s, l, t⟩
      ((mem_edges_iff _ _).mpr h) with hnone | hsome
    · exact target_union.mpr (.inr ⟨hnone, h⟩)
    · exact target_union.mpr (.inl hsome)
  intro w hw
  rcases (Language.mem_add _ _ w).mp hw with hw | hw
  · exact Path.mono (fun _ _ _ h => target_union.mpr (.inl h)) hw
  · exact Path.mono hkept hw

/-! ## Runs -/

/-- Behind `start` the first table is carried to the union **as it is**. Runs that have
taken a token by an edge of it go on as they would in the table alone. -/
theorem Disjoint.carries_left (hd : a.Disjoint c) (ha : a.WellFormed) (hc : c.WellFormed) :
    Carries id (fun s => s ≠ .start ∧ s ∈ a.states) a (a.union c) := by
  refine carries_of_target_eq (fun s l t hs => ?_)
    fun s l t _ h => ⟨ha.ne_start h, target_mem_states h⟩
  rw [target_union]
  refine ⟨?_, .inl⟩
  rintro (h | ⟨-, h⟩)
  · exact h
  · exact absurd (hd.symm.eq_start hc h hs.2) hs.1

/-- Away from `start` the second table is carried into the union as it is. That no edge
of it is lost there is what disjointness is for. -/
theorem Disjoint.carries_right (hd : a.Disjoint c) (ha : a.WellFormed) (hc : c.WellFormed) :
    Carries id (fun s => s ≠ .start ∧ s ∈ c.states) c (a.union c) := by
  refine carries_of_target_eq (fun s l t hs => ?_)
    fun s l t _ h => ⟨hc.ne_start h, target_mem_states h⟩
  rw [target_union]
  constructor
  · rintro (h | ⟨-, h⟩)
    · exact absurd (hd.eq_start ha h hs.2) hs.1
    · exact h
  · intro h
    refine .inr ⟨?_, h⟩
    rw [Option.eq_none_iff_forall_ne_some]
    intro t' h'
    exact hs.1 (hd.eq_start ha h' hs.2)

/-- The union accepts what the first table accepts, and of what the second one accepts
the words whose first token **does not open the first**. This is exact whatever is lost,
since at `start` there is no chain to go along. -/
theorem accepts_union_iff (ha : a.WellFormed) (hc : c.WellFormed) (hd : a.Disjoint c)
    (w : List Token) : (a.union c).accepts w = true ↔ a.accepts w = true ∨
      c.accepts w = true ∧ ∀ x v, w = x :: v → a.target .start (.token x) = none := by
  cases w with
  | nil =>
      rw [(ha.union hc hd).accepts_nil, ha.accepts_nil, hc.accepts_nil, epsilon_start_union]
      simp
  | cons x v =>
      -- behind the first token each table is carried by itself
      have hfirst : (∀ y u, x :: v = y :: u → a.target .start (.token y) = none) ↔
          a.target .start (.token x) = none := by
        refine ⟨fun h => h x v rfl, fun h y u heq => ?_⟩
        rw [← (List.cons.inj heq).1]
        exact h
      rw [(ha.union hc hd).accepts_cons, ha.accepts_cons, hc.accepts_cons, hfirst]
      constructor
      · rintro ⟨t, ht, hread⟩
        rcases target_union.mp ht with h | ⟨hnone, h⟩
        · exact .inl
            ⟨t, h, ((hd.carries_left ha hc).reads_iff ⟨ha.ne_start h, target_mem_states h⟩).mpr
              hread⟩
        · exact .inr
            ⟨⟨t, h, ((hd.carries_right ha hc).reads_iff ⟨hc.ne_start h, target_mem_states h⟩).mpr
              hread⟩, hnone⟩
      · rintro (⟨t, h, hread⟩ | ⟨⟨t, h, hread⟩, hnone⟩)
        · exact ⟨t, target_union.mpr (.inl h),
            ((hd.carries_left ha hc).reads_iff ⟨ha.ne_start h, target_mem_states h⟩).mp hread⟩
        · exact ⟨t, target_union.mpr (.inr ⟨hnone, h⟩),
            ((hd.carries_right ha hc).reads_iff ⟨hc.ne_start h, target_mem_states h⟩).mp hread⟩

/-! ## One or the other -/

/-- One table or the other **keeps the rules**. What is put beside the first table has
no number of it. -/
theorem WellFormed.merge (ha : a.WellFormed) (hb : b.WellFormed) (hwa : a.Within n) :
    (Automaton.merge n a b).automaton.WellFormed :=
  ha.union (hb.apart n a) (disjoint_apart b hwa)

/-- The result is within the number that was drawn last. -/
theorem within_merge (hwa : a.Within n) (hwb : b.Within n) :
    (merge n a b).automaton.Within (merge n a b).drawn :=
  (hwa.mono (le_drawn_apart n a b)).union (within_apart a hwb)

theorem le_drawn_merge (n : Nat) (a b : Automaton) : n ≤ (merge n a b).drawn := le_drawn_apart n a b

/-- One table or the other may be empty exactly if one of them may be. Two epsilon edges
at `start` enter the same state, so none of them is missed. -/
theorem epsilon_start_merge (hb : b.WellFormed) (n : Nat) (a : Automaton) :
    ((merge n a b).automaton.epsilon .start).isSome = true ↔
      (a.epsilon .start).isSome = true ∨ (b.epsilon .start).isSome = true := by
  rw [merge_eq, epsilon_start_union, ← (hb.apart n a).nil_mem_spelled, spelled_apart,
    hb.nil_mem_spelled]

/-- One table or the other spells words **of the two tables only**,
whatever was lost. -/
theorem spelled_merge_le (ha : a.WellFormed) (hb : b.WellFormed) (hwa : a.Within n) :
    (merge n a b).automaton.spelled ≤ a.spelled + b.spelled := by
  rw [← spelled_apart n a b]
  exact spelled_union_le ha (hb.apart n a) (disjoint_apart b hwa)

theorem spelled_merge (ha : a.WellFormed) (hb : b.WellFormed) (hwa : a.Within n)
    (h : (merge n a b).collisions = []) :
    (merge n a b).automaton.spelled = a.spelled + b.spelled := by
  rw [← spelled_apart n a b]
  exact spelled_union ha (hb.apart n a) (disjoint_apart b hwa) h

end TreeGrammar.Automaton
