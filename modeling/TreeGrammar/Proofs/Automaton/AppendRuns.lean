/-
How one table after another runs.

A run of `append` goes through the first table until a state **hands a token over**: the
first table may end there, the token opens the second table, and the state has no edge
of its own for it. From that token on the run is one of the second table. `readsInTurn`
runs two tables in this way, and `accepts_append` says that it is what `append` does,
whatever edges have been lost. A step in the first table (`consume_append_left`), the
step over (`exists_consume_append_over`) and the run of the rest (`reads_append_right`)
are put together by one induction on the word.
-/
import TreeGrammar.Proofs.Automaton.AppendChains
import TreeGrammar.Proofs.Automaton.Bisimulation

set_option autoImplicit false

namespace TreeGrammar.Automaton

open Appending

/-! ## Running two tables in turn -/

/-- The first table may end in the state, and the token opens the second table. An
**own** edge of the state for the token comes first; edges further along its chain do
not. -/
def handsOver (a b : Automaton) (s : State) (x : Token) : Bool :=
  (a.target s (.token x)).isNone && a.isFinished s && (b.target .start (.token x)).isSome

/-- Whether a word is read **by both tables in turn**, from a state of the first on. -/
def readsInTurn (a b : Automaton) : State → List Token → Bool
  | s, [] => a.isFinished s && b.accepts []
  | s, x :: w =>
      if a.handsOver b s x then b.accepts (x :: w)
      else (a.consume s x).any fun t => a.readsInTurn b t w

variable {n : Nat} {a b : Automaton} {s r t : State} {l : Label} {x : Token} {u v w : List Token}

/-- A state hands a token over exactly if it has no edge of its own for it, passes to
the end, and the second table is opened by it. -/
theorem handsOver_iff : a.handsOver b s x = true ↔
    a.target s (.token x) = none ∧ a.Passes s .fin ∧ ∃ t, b.target .start (.token x) = some t := by
  unfold handsOver
  rw [Bool.and_eq_true, Bool.and_eq_true, Option.isNone_iff_eq_none, isFinished_iff,
    Option.isSome_iff_exists, and_assoc]

/-- From where a token is handed over, the second table reads the rest **from
its beginning**. -/
theorem readsInTurn_of_handsOver (h : a.handsOver b s x = true) :
    a.readsInTurn b s (x :: w) = b.accepts (x :: w) := by
  rw [readsInTurn, if_pos h]

/-- Where a token is not handed over, the first table has to take it. With the lemma
before this unfolds reading in turn by one token. -/
theorem readsInTurn_of_not_handsOver (h : a.handsOver b s x = false) :
    a.readsInTurn b s (x :: w) = true ↔ ∃ t, a.consume s x = some t ∧
      a.readsInTurn b t w = true := by
  rw [readsInTurn, h, if_neg Bool.false_ne_true, Option.any_eq_true]

/-! ## Where `append` has the states of the first table -/

namespace Appending

/-- The state that stands for a state of the first table: the join stands for `fin`. -/
def placed (n : Nat) (a b : Automaton) (s : State) : State := if s = .fin then join n a b else s

/-- Where a run of the first table **can come to**: a state of it, and `fin` only if an
edge enters the join. -/
structure Visited (n : Nat) (a b : Automaton) (s : State) : Prop where
  mem : s ∈ a.states
  enters : s = .fin → entersJoin n a b = true

/-- The end of the first table is found at the join. -/
@[simp] theorem placed_fin : placed n a b .fin = join n a b := if_pos rfl

/-- Every other state of the first table is found where it was. -/
theorem placed_of_ne (h : s ≠ .fin) : placed n a b s = s := if_neg h

/-- The edges of the first table, between the states that stand for theirs. In this form
the first table is compared with the result without a word about moved ends. -/
theorem target_left : (left n a b).target s l = some t ↔
    ¬ (s = .start ∧ l = .epsilon) ∧ ∃ t₀, a.target s l = some t₀ ∧ t = placed n a b t₀ :=
      target_moveEnd

theorem visited_start : Visited n a b .start := ⟨start_mem_states a, fun h => absurd h (by simp)⟩

/-- Whatever an edge of the first table enters may be visited, save by the epsilon edge
of `start`, which is not there any more. -/
theorem visited_of_target (hsl : ¬ (s = .start ∧ l = .epsilon)) (h : a.target s l = some t) :
    Visited n a b t := by
  refine ⟨target_mem_states h, ?_⟩
  rintro rfl
  exact entersJoin_of_target (target_left.mpr ⟨hsl, .fin, h, placed_fin.symm⟩)

/-- What is entered by a token may be visited, wherever on the chain the
token was taken. -/
theorem visited_of_consume (h : a.consume s x = some t) : Visited n a b t := by
  obtain ⟨r, -, hr⟩ := exists_of_consume h
  exact visited_of_target (by simp) hr

end Appending

/-! ## Steps -/

section Steps

variable (ha : a.WellFormed) (hb : b.WellFormed) (hwa : a.Within n) (hwb : b.Within n)
include ha hb hwa hwb

/-- Behind `start` the second table is carried to `append` **as it is put there**. A run
that has come there reads what the second table would, so only the way there has to be
looked at. -/
theorem carries_append_right :
    Carries id (fun s => s ≠ .start ∧ s ∈ (right n a b).states) (right n a b)
      (append n a b).automaton := by
  refine carries_of_target_eq
    (fun s l t hs => ⟨target_append_right ha hb hwa hwb hs.1 hs.2, fun h => ?_⟩)
    fun s l t _ h => ⟨(right_wellFormed hb).ne_start h, target_mem_states h⟩
  exact (target_append ha hb hwa hwb).mpr (.right hs.1 h)

/-- Behind an edge that opens the second table, `append` **reads what the second
table reads**. From the first token of the second table on, the first table is of
no account. -/
theorem reads_append_right (h : (right n a b).target .start l = some t) :
    (append n a b).automaton.Reads t w ↔ (right n a b).Reads t w :=
  ((carries_append_right ha hb hwa hwb).reads_iff
    ⟨(right_wellFormed hb).ne_start h, target_mem_states h⟩).symm

/-- A state of the first table **keeps** an own edge, and where it has none it is given
none but for tokens that it hands over. -/
theorem target_append_of_keeps (hs : s ∈ a.states) (hnone : a.target s (.token x) = none)
    (hkeep : a.handsOver b s x = false) : (append n a b).automaton.target s (.token x) = none := by
  rw [Option.eq_none_iff_forall_ne_some]
  intro t h
  have hopens : a.Passes s .fin → (right n a b).target .start (.token x) ≠ some t := by
    intro hp ht
    have hover := handsOver_iff.mpr ⟨hnone, hp, (exists_target_start_apart n a b _).mp ⟨t, ht⟩⟩
    rw [hkeep] at hover
    exact absurd hover (by simp)
  rcases (target_append ha hb hwa hwb).mp
    h with h | ⟨hf, -, h⟩ | ⟨hstart, h⟩ | ⟨-, -⟩ | ⟨hnull, -, h⟩
  · obtain ⟨-, t₀, ht₀, -⟩ := target_left.mp h
    rw [hnone] at ht₀
    exact absurd ht₀ (by simp)
  · exact hopens ((mem_feeders_iff ha hwa).mp hf).2.2 h
  · exact notMem_left_of_right hwa hb hstart h hs
  · exact join_notMem_left hwa hs
  · exact hopens (ha.passes_start_fin.mpr hnull) h

/-- A token that the first table takes without handing it over **is taken alike**. The
induction is along the chain: what a state does not hand over, no later state of its
chain does. -/
theorem takes_append_left (h : a.Takes x s t) (hkeep : a.handsOver b s x = false) :
    (append n a b).automaton.Takes x s (placed n a b t) := by
  induction h with
  | here ht =>
      exact .here
        ((target_append ha hb hwa hwb).mpr (.left (target_left.mpr ⟨by simp, _, ht, rfl⟩)))
  | @later s r t hnone hr ht ih =>
      have hrfin : r ≠ .fin := by
        rintro rfl
        obtain ⟨q, hq, hqt⟩ := ht.exists_edge
        rw [ha.eq_of_passes_fin hq] at hqt
        exact ha.ne_fin hqt rfl
      have hstart : s ≠ .start := by
        rintro rfl
        exact hrfin (ha.epsilon_start r hr)
      have hedge := target_append_of_keeps ha hb hwa hwb (source_mem_states hr) hnone hkeep
      refine .later hedge ((target_append ha hb hwa hwb).mpr (.left ?_)) (ih ?_)
      · exact target_moveEnd_of_ne_fin (fun e => hstart e.1) hr hrfin
      · rw [Bool.eq_false_iff, Ne, handsOver_iff] at hkeep ⊢
        rintro ⟨-, hp, hopen⟩
        exact hkeep ⟨hnone, hp.head hr, hopen⟩

/-- What `append` takes at a state of the first table, the first table takes there, **or
hands over**. -/
theorem exists_of_consume_append (hs : s ∈ a.states)
    (h : (append n a b).automaton.consume (placed n a b s) x = some t) :
    (∃ t₀, a.consume s x = some t₀) ∨ a.handsOver b s x = true := by
  -- a state that may end hands the token over, or has an edge of its own for it
  have hopens : a.Passes s .fin → (right n a b).target .start (.token x) = some t →
      (∃ t₀, a.consume s x = some t₀) ∨ a.handsOver b s x = true := by
    intro hp ht
    cases hedge : a.target s (.token x) with
    | some t₀ => exact .inl (exists_consume (a.passes_refl s) hedge)
    | none =>
        exact .inr (handsOver_iff.mpr ⟨hedge, hp, (exists_target_start_apart n a b _).mp ⟨t, ht⟩⟩)
  obtain ⟨r, hr, hrt⟩ := exists_of_consume h
  have hoffer := appendOffer_of_passes ha hb hwa hwb hr hrt
  by_cases hfin : s = .fin
  · subst hfin
    rw [placed_fin] at hoffer
    rcases hoffer with ⟨hp, h⟩ | ⟨hne, hp, -⟩ | ⟨-, hmem, -⟩ | ⟨-, h⟩
    · exact absurd (source_of_passes_left ha hp h).1 (join_notMem_left hwa)
    · exact absurd (mem_of_passes_fin hne hp) (join_notMem_left hwa)
    · exact absurd hmem (join_notMem_right hwb)
    · exact hopens (a.passes_refl .fin) h
  · rw [placed_of_ne hfin] at hoffer
    rcases hoffer with ⟨hp, h⟩ | ⟨-, hp, h⟩ | ⟨hstart, hmem, -⟩ | ⟨rfl, -⟩
    · obtain ⟨-, t₀, ht₀, -⟩ := target_left.mp h
      exact .inl (exists_consume hp ht₀)
    · exact hopens hp h
    · exact absurd hmem (notMem_right hwa hs hfin hstart)
    · exact absurd hs (join_notMem_left hwa)

/-- **A step in the first table**: a token that is not handed over is taken as the first
table takes it. -/
theorem consume_append_left (hs : s ∈ a.states) (hkeep : a.handsOver b s x = false) :
    (append n a b).automaton.consume (placed n a b s) x = (a.consume s x).map (placed n a b) := by
  cases hc : a.consume s x with
  | some t =>
      have htakes := consume_eq_some_iff.mp hc
      have hfin : s ≠ .fin := by
        rintro rfl
        obtain ⟨r, hr, hrt⟩ := htakes.exists_edge
        rw [ha.eq_of_passes_fin hr] at hrt
        exact ha.ne_fin hrt rfl
      rw [placed_of_ne hfin, Option.map_some]
      exact consume_eq_some_iff.mpr (takes_append_left ha hb hwa hwb htakes hkeep)
  | none =>
      cases happ : (append n a b).automaton.consume (placed n a b s) x with
      | none => rfl
      | some t =>
          rcases exists_of_consume_append ha hb hwa hwb hs happ with ⟨t₀, ht₀⟩ | hover
          · exact absurd (hc.symm.trans ht₀) (by simp)
          · exact absurd (hkeep.symm.trans hover) (by simp)

/-- **The step over**: a token that is handed over is taken by an edge that opens the
second table. The edge was given to the state itself, or to `start`, or stands at the
join, where the chain comes next. -/
theorem exists_consume_append_over (hs : Visited n a b s) (hover : a.handsOver b s x = true) :
    ∃ t, (right n a b).target .start (.token x) = some t ∧
      (append n a b).automaton.consume (placed n a b s) x = some t := by
  obtain ⟨hnone, hp, hopen⟩ := handsOver_iff.mp hover
  obtain ⟨t, ht⟩ := (exists_target_start_apart n a b _).mpr hopen
  have hleft : (left n a b).target s (.token x) = none := by
    rw [Option.eq_none_iff_forall_ne_some]
    intro q hq
    obtain ⟨-, t₀, ht₀, -⟩ := target_left.mp hq
    exact absurd (hnone.symm.trans ht₀) (by simp)
  refine ⟨t, ht, consume_eq_some_iff.mpr (.here ((target_append ha hb hwa hwb).mpr ?_))⟩
  -- `fin` gave its place to the join; `start` and the feeders have been given the
  -- edge themselves
  by_cases hfin : s = .fin
  · rw [hfin, placed_fin]
    exact .joined (hs.enters hfin) ht
  · rw [placed_of_ne hfin]
    by_cases hstart : s = .start
    · subst hstart
      exact .opened (ha.passes_start_fin.mp hp) hleft ht
    · exact .fed ((mem_feeders_iff ha hwa).mpr ⟨hstart, hfin, hp⟩) hleft ht

/-- At the join the content may end **if the second table may be empty**. The epsilon
edge of the second table's `start` is among those that the join is given. -/
theorem passes_join_fin (hen : entersJoin n a b = true)
    (heps : (right n a b).epsilon .start = some .fin) :
    (append n a b).automaton.Passes (join n a b) .fin :=
  (passes_refl _ .fin).head ((target_append ha hb hwa hwb).mpr (.joined hen heps))

/-- Where the first table may end, the chain goes on to the join, and `start` **has got
an epsilon edge back**. -/
theorem passes_fin_append_of_nullable (hs : Visited n a b s) (hp : a.Passes s .fin)
    (heps : (right n a b).epsilon .start = some .fin) :
    (append n a b).automaton.Passes (placed n a b s) .fin := by
  by_cases hfin : s = .fin
  · rw [hfin, placed_fin]
    exact passes_join_fin ha hb hwa hwb (hs.enters hfin) heps
  · rw [placed_of_ne hfin]
    by_cases hstart : s = .start
    · subst hstart
      exact (passes_refl _ .fin).head ((target_append ha hb hwa hwb).mpr
        (.opened (ha.passes_start_fin.mp hp) (epsilon_start_moveEnd a (join n a b)) heps))
    · have hleft : (left n a b).Passes s (join n a b) := passes_moveEnd ha hstart hfin hp
      obtain ⟨r, l, hr⟩ :=
        (path_of_passes hleft).exists_last (fun h => join_notMem_left hwa (h ▸ hs.mem))
      have hchain : (append n a b).automaton.Passes s (join n a b) :=
        Relation.ReflTransGen.mono (fun _ _ h => (target_append ha hb hwa hwb).mpr (.left h))
          _ _ hleft
      exact hchain.trans (passes_join_fin ha hb hwa hwb (entersJoin_of_target hr) heps)

/-- The content may end at a state of the first table **if the first table may and the
second may be empty**. Both directions matter: a content that might end too early would
hide a missing child. -/
theorem passes_fin_append_iff (hs : Visited n a b s) :
    (append n a b).automaton.Passes (placed n a b s) .fin ↔ a.Passes s .fin ∧
      (right n a b).Passes .start .fin := by
  constructor
  · intro h
    -- the end of the first table has become the join, so it is a case of its own
    by_cases hfin : s = .fin
    · subst hfin
      rw [placed_fin] at h
      rcases passes_fin_append ha hb hwa hwb h with ⟨hne, hp, -⟩ | ⟨-, hmem, -⟩ | ⟨-, hp⟩
      · exact absurd (mem_of_passes_fin hne hp) (join_notMem_left hwa)
      · exact absurd hmem (join_notMem_right hwb)
      · exact ⟨a.passes_refl .fin, hp⟩
    · rw [placed_of_ne hfin] at h
      rcases passes_fin_append ha hb hwa hwb h with ⟨-, hp⟩ | ⟨hstart, hmem, -⟩ | ⟨rfl, -⟩
      · exact hp
      · exact absurd hmem (notMem_right hwa hs.mem hfin hstart)
      · exact absurd hs.mem (join_notMem_left hwa)
  · rintro ⟨hp, hnull⟩
    obtain ⟨t, ht⟩ := Option.isSome_iff_exists.mp ((right_wellFormed hb).passes_start_fin.mp hnull)
    have heps : (right n a b).epsilon .start = some .fin := by
      rw [ht, (right_wellFormed hb).epsilon_start t ht]
    exact passes_fin_append_of_nullable ha hb hwa hwb hs hp heps

/-! ## Runs -/

/-- From a state of the first table on, `append` reads what **both tables read in
turn**. By induction on the word; the first token is taken within the first table or
handed over, and in the second case the induction is over. -/
theorem reads_append_iff (hs : Visited n a b s) :
    (append n a b).automaton.Reads (placed n a b s) w ↔ a.readsInTurn b s w = true := by
  induction w generalizing s with
  | nil =>
      rw [reads_nil, passes_fin_append_iff ha hb hwa hwb hs, readsInTurn, Bool.and_eq_true,
        isFinished_iff, ← accepts_apart n a b, accepts_iff, reads_nil]
      rfl
  | cons x w ih =>
      rw [reads_cons]
      -- once a token is handed over, the rest of the word is read in the second table
      cases hover : a.handsOver b s x with
      | true =>
          obtain ⟨t, ht, hc⟩ := exists_consume_append_over ha hb hwa hwb hs hover
          have hrest : (right n a b).consume .start x = some t := consume_eq_some_iff.mpr (.here ht)
          rw [readsInTurn_of_handsOver hover, ← accepts_apart n a b, accepts_iff, reads_cons]
          show _ ↔ ∃ t, (right n a b).consume .start x = some t ∧ (right n a b).Reads t w
          simp only [hc, hrest, Option.some.injEq, exists_eq_left']
          exact reads_append_right ha hb hwa hwb ht
      | false =>
          rw [readsInTurn_of_not_handsOver hover, consume_append_left ha hb hwa hwb hs.mem hover]
          cases hc : a.consume s x with
          | none => simp
          | some t => simpa using ih (visited_of_consume hc)

/-- One table after another **accepts what both read in turn**, whatever edges have been
lost. This is exact in every case. Where it differs from the product of the two
languages, an edge of the first table has been **preferred**. -/
theorem accepts_append (w : List Token) :
    (append n a b).automaton.accepts w = a.readsInTurn b .start w := by
  rw [Bool.eq_iff_iff, accepts_iff, ← reads_append_iff ha hb hwa hwb visited_start,
    placed_of_ne (by simp)]

end Steps

/-! ## Without a loss -/

section Unlost

variable (ha : a.WellFormed) (hb : b.WellFormed) (hwa : a.Within n) (hwb : b.Within n)
  (hcollisions : (append n a b).collisions = [])
include ha hb hwa hwb hcollisions

/-- Without a loss, where the first table may end it **takes no token** that opens the
second, nowhere along the chain. The feeders have been asked for their own edges, but
what the chain behind a feeder offers would have been lost as well, at the next feeder
along it. -/
theorem consume_eq_none_of_opens (hp : a.Passes s .fin)
    (hopen : ∃ t, b.target .start (.token x) = some t) : a.consume s x = none := by
  rw [Option.eq_none_iff_forall_ne_some]
  intro t hc
  obtain ⟨r, hr, hrt⟩ := exists_of_consume hc
  obtain ⟨t', ht'⟩ := (exists_target_start_apart n a b _).mpr hopen
  have hleft : (left n a b).target r (.token x) = some (placed n a b t) :=
    target_left.mpr ⟨by simp, t, hrt, rfl⟩
  exact opening_ne_of_passes_fin ha hb hwa hwb hcollisions hr hleft hp ht'

/-- Without a loss, what two tables read in turn is **a word of the first and then one
of the second**. Where the first table may end and the next token opens the second one,
there is no choice to be made. -/
theorem readsInTurn_iff_of_unlost : a.readsInTurn b s w = true ↔
    ∃ u v, w = u ++ v ∧ a.Reads s u ∧ b.accepts v = true := by
  induction w generalizing s with
  | nil =>
      rw [readsInTurn, Bool.and_eq_true, isFinished_iff, ← reads_nil]
      constructor
      · rintro ⟨hs, hnull⟩
        exact ⟨[], [], rfl, hs, hnull⟩
      · rintro ⟨u, v, h, hu, hv⟩
        obtain ⟨rfl, rfl⟩ := List.append_eq_nil_iff.mp h.symm
        exact ⟨hu, hv⟩
  | cons x w ih =>
      cases hover : a.handsOver b s x with
      | true =>
          rw [readsInTurn_of_handsOver hover]
          obtain ⟨-, hp, hopen⟩ := handsOver_iff.mp hover
          constructor
          · intro h
            exact ⟨[], x :: w, rfl, reads_nil.mpr hp, h⟩
          · rintro ⟨u, v, h, hu, hv⟩
            cases u with
            | nil =>
                rw [show x :: w = v from h]
                exact hv
            | cons y u =>
                -- the token opens the second table, so the first one cannot have taken it
                obtain ⟨t, ht, -⟩ := reads_cons.mp hu
                rw [← (List.cons.inj h).1, consume_eq_none_of_opens ha hb hwa hwb hcollisions
                  hp hopen] at ht
                exact absurd ht (by simp)
      | false =>
          rw [readsInTurn_of_not_handsOver hover]
          constructor
          · rintro ⟨t, ht, hrest⟩
            obtain ⟨u, v, rfl, hu, hv⟩ := ih.mp hrest
            exact ⟨x :: u, v, rfl, reads_cons.mpr ⟨t, ht, hu⟩, hv⟩
          · rintro ⟨u, v, h, hu, hv⟩
            cases u with
            | nil =>
                -- the second table would take the token here, and nothing else does, so it
                -- is handed over
                have hp := reads_nil.mp hu
                rw [List.nil_append] at h
                rw [← h] at hv
                obtain ⟨t, ht, -⟩ := hb.accepts_cons.mp hv
                have hnone : a.target s (.token x) = none := by
                  rw [Option.eq_none_iff_forall_ne_some]
                  intro t' ht'
                  have hc := consume_eq_some_iff.mpr (Takes.here ht')
                  rw [consume_eq_none_of_opens ha hb hwa hwb hcollisions hp ⟨t, ht⟩] at hc
                  exact absurd hc (by simp)
                rw [handsOver_iff.mpr ⟨hnone, hp, t, ht⟩] at hover
                exact absurd hover (by simp)
            | cons y u =>
                obtain ⟨rfl, rfl⟩ := List.cons.inj h
                obtain ⟨t, ht, hu⟩ := reads_cons.mp hu
                exact ⟨t, ht, ih.mpr ⟨u, v, rfl, hu, hv⟩⟩

/-- Without a loss, one table after another **accepts the products**. Only acceptance is
spoken of, so the two tables may have shadowed edges of their own. -/
theorem accepts_append_iff_of_unlost (w : List Token) : (append n a b).automaton.accepts w = true ↔
    ∃ u v, w = u ++ v ∧ a.accepts u = true ∧ b.accepts v = true := by
  rw [accepts_append ha hb hwa hwb, readsInTurn_iff_of_unlost ha hb hwa hwb hcollisions]
  simp only [accepts_iff]

end Unlost

/-! ## What the first table accepts by itself -/

/-- After `u` has been read from a state on in the first table, the token is **the first
to be handed over**. -/
inductive FirstHandedOver (a b : Automaton) : State → List Token → Token → Prop
  | here {s : State} {x : Token} (h : a.handsOver b s x = true) : FirstHandedOver a b s [] x
  | later {s t : State} {x y : Token} {u : List Token} (hkeep : a.handsOver b s y = false)
      (ht : a.consume s y = some t) (rest : FirstHandedOver a b t u x) :
      FirstHandedOver a b s (y :: u) x

/-- If the second table may be empty, a word of the first one is read unless **the
second one does not read on** from the first token that is handed over. -/
theorem readsInTurn_iff_of_reads (hnull : b.accepts [] = true) (h : a.Reads s w) :
    a.readsInTurn b s w = true ↔ ∀ u x v, w = u ++ x :: v → a.FirstHandedOver b s u x →
    b.accepts (x :: v) = true := by
  induction w generalizing s with
  | nil =>
      have hs := (a.isFinished_iff s).mpr (reads_nil.mp h)
      rw [readsInTurn, hs, hnull]
      refine ⟨fun _ u x v hw => ?_, fun _ => rfl⟩
      exact absurd (congrArg List.length hw) (by simp)
  | cons y w ih =>
      -- the word is cut at the first token that is handed over, which is this one or
      -- a later one
      cases hover : a.handsOver b s y with
      | true =>
          rw [readsInTurn_of_handsOver hover]
          constructor
          · intro hb u x v hw hfirst
            cases hfirst with
            | here _ =>
                rw [← show y :: w = x :: v from hw]
                exact hb
            | later hkeep _ _ =>
                rw [← (List.cons.inj hw).1, hover] at hkeep
                exact absurd hkeep (by simp)
          · exact fun hall => hall [] y w rfl (.here hover)
      | false =>
          obtain ⟨t, ht, hrest⟩ := reads_cons.mp h
          rw [readsInTurn_of_not_handsOver hover]
          simp only [ht, Option.some.injEq, exists_eq_left', ih hrest]
          constructor
          · intro hall u x v hw hfirst
            cases hfirst with
            | here hx =>
                rw [← (List.cons.inj hw).1, hover] at hx
                exact absurd hx (by simp)
            | later _ ht' hfirst =>
                obtain ⟨rfl, rfl⟩ := List.cons.inj hw
                rw [Option.some.inj (ht'.symm.trans ht)] at hfirst
                exact hall _ x v rfl hfirst
          · intro hall u x v hw hfirst
            exact hall (y :: u) x v (congrArg (y :: ·) hw) (.later hover ht hfirst)

end TreeGrammar.Automaton
