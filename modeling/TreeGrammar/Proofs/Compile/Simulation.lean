/-
A made table follows the positions of its expression.

Each state of a table tracks a place of the expression, and each position has a
state: what an edge on the chain of a state takes and enters is the token and the state
of a position that comes after the place of that state, and where the chain leads to
`fin` the place is final. No operator breaks this, whatever edges it loses
(`Made.follows`). For a one-unambiguous expression it says that two edges of one chain
for one token enter one state. So nothing is lost, and nothing is shadowed.
-/
import TreeGrammar.Proofs.Compile.Made
import TreeGrammar.Proofs.Pattern.Positions

set_option autoImplicit false

namespace TreeGrammar

open Automaton Automaton.Appending

namespace Automaton

/-- The state **tracks** the place: its chain offers what comes after the place, and
ends only where a word may. -/
structure Tracks (a : Automaton) (r : Regex) (τ : r.Position → State) (s : State)
    (c : Option r.Position) : Prop where
  start : s = .start → c = none
  offers : ∀ q x t, a.Passes s q → a.target q (.token x) = some t →
    ∃ p, r.After c p ∧ r.symbol p = x ∧ τ p = t
  final : a.Passes s .fin → r.Final c

/-- The table **follows** the expression: every state tracks some place. -/
def Follows (a : Automaton) (r : Regex) (τ : r.Position → State) : Prop :=
  ∀ s, ∃ c, a.Tracks r τ s c

variable {n : Nat} {a b c : Automaton} {r q : Regex} {s t : State} {x : Token}

/-- What opens a table is a first position of the expression: at `start` no position has
been passed. The expression describes what can come first by its first positions. -/
theorem Follows.first {τ : r.Position → State} (h : a.Follows r τ)
    (ht : a.target .start (.token x) = some t) : ∃ p, r.first p ∧ r.symbol p = x ∧ τ p = t := by
  obtain ⟨c, hc⟩ := h .start
  obtain rfl := hc.start rfl
  exact hc.offers .start x t (a.passes_refl .start) ht

/-! ## Tables of one edge -/

/-- The table of the empty word follows an expression without positions. -/
theorem follows_emptyWord : emptyWord.Follows .one Empty.elim := by
  intro s
  refine ⟨none, fun _ => rfl, fun q x t hq h => ?_, fun _ => trivial⟩
  exact absurd (offer_of_optional wellFormed_blank hq h).2 (by simp)

/-- The table of a token enters `fin` at its one position. This is where positions and
states begin to correspond. -/
theorem follows_single (x : Token) : (single x).Follows (.token x) fun _ => .fin := by
  intro s
  -- `start` stands before the token, everything else behind it
  by_cases hs : s = .start
  · subst hs
    refine ⟨none, fun _ => rfl, fun q y t _ h => ?_, fun hp => ?_⟩
    · obtain ⟨-, hy, ht⟩ := target_single.mp h
      exact ⟨(), trivial, (Label.token.inj hy).symm, ht.symm⟩
    · exact absurd (eq_of_passes hp (epsilon_single x .start)) (by simp)
  · refine ⟨some (), fun h => absurd h hs, fun q y t hq h => ?_, fun _ => trivial⟩
    obtain rfl := eq_of_passes hq (epsilon_single x s)
    exact absurd (target_single.mp h).1 hs

/-! ## Copies -/

/-- A renamed table follows what the table follows. Every edge of the renamed table has
to be an image of an edge. -/
theorem Renames.follows {f : State → State} {p : State → Prop} (h : Renames f p a b)
    (hsource : ∀ s l t, b.target s l = some t → ∃ s₀, p s₀ ∧ f s₀ = s)
    {τ : r.Position → State} (ha : a.Follows r τ) : b.Follows r fun o => f (τ o) := by
  intro s
  by_cases hs : ∃ s₀, p s₀ ∧ f s₀ = s
  · obtain ⟨s₀, hs₀, rfl⟩ := hs
    obtain ⟨c, hc⟩ := ha s₀
    refine ⟨c, fun hstart => ?_, fun q x t hq ht => ?_, fun hp => ?_⟩
    · rw [← h.apply_start] at hstart
      exact hc.start (h.injective _ _ hs₀ h.start_mem hstart)
    · obtain ⟨q₀, rfl, hq₀⟩ := h.carries.exists_of_passes hs₀ hq
      rw [h.target_eq _ _ (h.carries.mem_of_passes hs₀ hq₀)] at ht
      obtain ⟨t₀, ht₀, rfl⟩ := Option.map_eq_some_iff.mp ht
      obtain ⟨o, ho, hsymbol, rfl⟩ := hc.offers q₀ x t₀ hq₀ ht₀
      exact ⟨o, ho, hsymbol, rfl⟩
    · obtain ⟨t₀, ht₀, hp₀⟩ := h.carries.exists_of_passes hs₀ hp
      rw [← h.apply_fin] at ht₀
      rw [h.injective _ _ (h.carries.mem_of_passes hs₀ hp₀) h.fin_mem ht₀] at hp₀
      exact hc.final hp₀
  · -- a state without edges stands anywhere
    have hnone : ∀ l t, b.target s l ≠ some t := fun l t ht => hs (hsource s l t ht)
    refine ⟨none, fun _ => rfl, fun q x t hq ht => ?_, fun hp => ?_⟩
    · rw [eq_of_passes_of_forall_ne hq hnone] at ht
      exact absurd ht (hnone _ t)
    · have heq : .fin = s := eq_of_passes_of_forall_ne hp hnone
      exact absurd ⟨.fin, h.fin_mem, h.apply_fin.trans heq⟩ hs

/-- A copy follows the same expression, its positions sent to the copied states. Copies
are renamings that every edge comes from. -/
theorem Follows.copy {τ : r.Position → State} (ha : a.Follows r τ) (n : Nat) :
    ∃ τ', (a.copy n).automaton.Follows r τ' := by
  refine ⟨_, (renames_copy a n).follows (fun s l t h => ?_) ha⟩
  obtain ⟨s₀, t₀, hs, -, h₀⟩ := (target_copy a n s t l).mp h
  exact ⟨s₀, source_mem_states h₀, hs⟩

theorem Follows.apart {τ : q.Position → State} (hb : b.Follows q τ) (n : Nat) (a : Automaton) :
    ∃ τ', (Automaton.apart n a b).automaton.Follows q τ' :=
  apart_induction (motive := fun d => ∃ τ', d.automaton.Follows q τ') n a b ⟨τ, hb⟩ (hb.copy n)

/-! ## One after the other -/

/-- A position of the first expression enters the join **where it entered `fin`**. -/
def appendPlace (n : Nat) (a b : Automaton) (τ : r.Position → State) (υ : q.Position → State) :
    (r.seq q).Position → State
  | .inl p => if τ p = .fin then join n a b else τ p
  | .inr p => υ p

section Append

variable {τ : r.Position → State} {υ : q.Position → State}

/-- Where the first expression may end, what opens the second table comes next. What
opens the second table was entered among its first positions. -/
theorem Follows.opening (hfb : (right n a b).Follows q υ) {e : Option r.Position} (he : r.Final e)
    (ht : (right n a b).target .start (.token x) = some t) :
    ∃ p, (r.seq q).After (e.map .inl) p ∧ (r.seq q).symbol p = x ∧ appendPlace n a b τ υ p = t := by
  obtain ⟨p, hp, hsymbol, hυ⟩ := hfb.first ht
  exact ⟨.inr p, Regex.after_inr_of_final he hp, hsymbol, hυ⟩

/-- Where the table may be empty, so may the expression. -/
theorem Follows.nullable (h : a.Follows r τ) (hp : a.Passes .start .fin) : r.nullable := by
  obtain ⟨c, hc⟩ := h .start
  obtain rfl := hc.start rfl
  exact hc.final hp

variable (ha : a.WellFormed) (hb : b.WellFormed) (hwa : a.Within n) (hwb : b.Within n)
include ha hb hwa hwb

/-- A state of the second table stands **where it stood**, behind the end of the first
expression. What enters it is an edge of the second table or a copy of one of its
first edges. -/
theorem Tracks.append_right (hs : s ≠ .start) (hmem : s ∈ (right n a b).states)
    {e : Option r.Position} (he : r.Final e) {c : Option q.Position}
    (hc : (right n a b).Tracks q υ s c) :
    (append n a b).automaton.Tracks (r.seq q) (appendPlace n a b τ υ) s (Regex.behind e c) := by
  -- the first table knows no more of such a state than that it may be `fin`
  have hleft : s ∈ a.states → s = .fin := by
    intro hsa
    by_contra hfin
    exact notMem_right hwa hsa hfin hs hmem
  have hjoin : s ≠ join n a b := by
    rintro rfl
    exact join_notMem_right hwb hmem
  refine ⟨fun h => absurd h hs, fun p x t hp ht => ?_, fun hp => ?_⟩
  · rcases appendOffer_of_passes ha hb hwa hwb hp ht with
      ⟨hp, h⟩ | ⟨hfin, hp, h⟩ | ⟨-, -, hp, h⟩ | ⟨h, -⟩
    · obtain ⟨hsa, hfin⟩ := source_of_passes_left ha hp h
      exact absurd (hleft hsa) hfin
    · exact absurd (hleft (mem_of_passes_fin hfin hp)) hfin
    · obtain ⟨o, ho, hsymbol, hυ⟩ := hc.offers _ x t hp h
      exact ⟨.inr o, Regex.after_behind he ho, hsymbol, hυ⟩
    · exact absurd h hjoin
  · rcases passes_fin_append ha hb hwa hwb hp with ⟨hfin, hp, -⟩ | ⟨-, -, hp⟩ | ⟨h, -⟩
    · exact absurd (hleft (mem_of_passes_fin hfin hp)) hfin
    · exact Regex.final_behind he (hc.final hp)
    · exact absurd h hjoin

/-- The join stands where the first expression **has ended**. Its edges are the copied
first edges of the second table. -/
theorem Tracks.append_join (hfb : (right n a b).Follows q υ) {e : Option r.Position}
    (he : r.Final e) : (append n a b).automaton.Tracks (r.seq q) (appendPlace n a b τ υ)
    (join n a b) (e.map .inl) := by
  have hnotMem : join n a b ∉ a.states := join_notMem_left hwa
  refine ⟨fun h => absurd h join_ne_start, fun p x t hp ht => ?_, fun hp => ?_⟩
  · rcases appendOffer_of_passes ha hb hwa hwb hp ht with
      ⟨hp, h⟩ | ⟨hfin, hp, -⟩ | ⟨-, hmem, -, -⟩ | ⟨-, h⟩
    · exact absurd (source_of_passes_left ha hp h).1 hnotMem
    · exact absurd (mem_of_passes_fin hfin hp) hnotMem
    · exact absurd hmem (join_notMem_right hwb)
    · exact hfb.opening he h
  · rcases passes_fin_append ha hb hwa hwb hp with ⟨hfin, hp, -⟩ | ⟨-, hmem, -⟩ | ⟨-, hp⟩
    · exact absurd (mem_of_passes_fin hfin hp) hnotMem
    · exact absurd hmem (join_notMem_right hwb)
    · exact Regex.final_inl he (hfb.nullable hp)

/-- Any other state stands **where it stood** in the first expression. What it may pass
to in addition is the join. -/
theorem Tracks.append_left (hfb : (right n a b).Follows q υ)
    (hright : ¬ (s ≠ .start ∧ s ∈ (right n a b).states)) (hjoin : s ≠ join n a b)
    {c : Option r.Position} (hc : a.Tracks r τ s c) :
    (append n a b).automaton.Tracks (r.seq q) (appendPlace n a b τ υ) s (c.map .inl) := by
  refine ⟨fun h => ?_, fun p x t hp ht => ?_, fun hp => ?_⟩
  · rw [hc.start h]
    rfl
  · rcases appendOffer_of_passes ha hb hwa hwb hp ht with
      ⟨hp, h⟩ | ⟨-, hp, h⟩ | ⟨hs, hmem, -, -⟩ | ⟨h, -⟩
    · obtain ⟨-, t₀, ht₀, rfl⟩ := target_moveEnd.mp h
      obtain ⟨o, ho, hsymbol, rfl⟩ := hc.offers _ x t₀ hp ht₀
      exact ⟨.inl o, Regex.after_inl ho, hsymbol, rfl⟩
    · exact hfb.opening (hc.final hp) h
    · exact absurd ⟨hs, hmem⟩ hright
    · exact absurd h hjoin
  · rcases passes_fin_append ha hb hwa hwb hp with ⟨-, hp, hq⟩ | ⟨hs, hmem, -⟩ | ⟨h, -⟩
    · exact Regex.final_inl (hc.final hp) (hfb.nullable hq)
    · exact absurd ⟨hs, hmem⟩ hright
    · exact absurd h hjoin

/-- One table after another **follows the sequence**. A state belongs to one of the
tables or is the join, and at each of these places the edges are those that the sequence
allows next. -/
theorem Follows.append (hfa : a.Follows r τ) (hfb : (right n a b).Follows q υ) :
    (append n a b).automaton.Follows (r.seq q) (appendPlace n a b τ υ) := by
  intro s
  -- `fin` of the first table says at which place the first expression has ended
  obtain ⟨e, he⟩ := hfa .fin
  have hend : r.Final e := he.final (a.passes_refl .fin)
  by_cases hright : s ≠ .start ∧ s ∈ (right n a b).states
  · obtain ⟨c, hc⟩ := hfb s
    exact ⟨_, hc.append_right ha hb hwa hwb hright.1 hright.2 hend⟩
  · by_cases hjoin : s = join n a b
    · rw [hjoin]
      exact ⟨_, .append_join ha hb hwa hwb hfb hend⟩
    · obtain ⟨c, hc⟩ := hfa s
      exact ⟨_, hc.append_left ha hb hwa hwb hfb hright hjoin⟩

end Append

/-! ## One or the other -/

/-- The places of one expression or the other. -/
def unionPlace (τ : r.Position → State) (υ : q.Position → State) : (r.alt q).Position → State
  | .inl p => τ p
  | .inr p => υ p

section Union

variable {τ : r.Position → State} {υ : q.Position → State} {i : Option r.Position}
  {j : Option q.Position}

/-- What comes after a place of one of the expressions comes after it in the choice
between them. Places of the two branches are kept apart, so each of them is followed by
places of its own branch only. -/
theorem Tracks.union_inl (hi : a.Tracks r τ s i) {p : State} (hp : a.Passes s p)
    (ht : a.target p (.token x) = some t) :
    ∃ o, (r.alt q).After (i.map .inl) o ∧ (r.alt q).symbol o = x ∧ unionPlace τ υ o = t := by
  obtain ⟨o, ho, hsymbol, hτ⟩ := hi.offers p x t hp ht
  exact ⟨.inl o, Regex.after_alt_inl ho, hsymbol, hτ⟩

/-- An offer of the second table is one of the choice. -/
theorem Tracks.union_inr (hj : c.Tracks q υ s j) {p : State} (hp : c.Passes s p)
    (ht : c.target p (.token x) = some t) :
    ∃ o, (r.alt q).After (j.map .inr) o ∧ (r.alt q).symbol o = x ∧ unionPlace τ υ o = t := by
  obtain ⟨o, ho, hsymbol, hυ⟩ := hj.offers p x t hp ht
  exact ⟨.inr o, Regex.after_alt_inr ho, hsymbol, hυ⟩

/-- One table or the other follows the choice. Only at `start` do both offer, where
neither expression has begun. -/
theorem Follows.union (ha : a.WellFormed) (hc : c.WellFormed) (hd : a.Disjoint c)
    (hfa : a.Follows r τ) (hfc : c.Follows q υ) :
    (a.union c).Follows (r.alt q) (unionPlace τ υ) := by
  intro s
  obtain ⟨i, hi⟩ := hfa s
  obtain ⟨j, hj⟩ := hfc s
  by_cases hs : s = .start
  · -- at `start` both expressions may begin
    obtain rfl := hi.start hs
    obtain rfl := hj.start hs
    refine ⟨none, fun _ => rfl, fun p x t hp ht => ?_, fun hp => ?_⟩
    · rcases offer_union ha hc hd hp ht with ⟨p, hp, h⟩ | ⟨p, hp, h⟩
      · exact hi.union_inl hp h
      · exact hj.union_inr hp h
    · rcases passes_union ha hc hd hp with hp | hp
      · exact Regex.final_alt_inl (hi.final hp)
      · exact Regex.final_alt_inr (hj.final hp)
  · -- any other state has edges of one table only, and stands where it stood there
    by_cases hedge : ∃ l t, c.target s l = some t
    · obtain ⟨l, t₀, h₀⟩ := hedge
      have hnone : ∀ l t, a.target s l ≠ some t :=
        fun l t h => hs (hd.eq_start ha h (source_mem_states h₀))
      refine ⟨j.map .inr, fun h => absurd h hs, fun p x t hp ht => ?_, fun hp => ?_⟩
      · rcases offer_union ha hc hd hp ht with ⟨p, hp, h⟩ | ⟨p, hp, h⟩
        · rw [eq_of_passes_of_forall_ne hp hnone] at h
          exact absurd h (hnone _ t)
        · exact hj.union_inr hp h
      · rcases passes_union ha hc hd hp with hp | hp
        · exact absurd (eq_of_passes_of_forall_ne hp hnone).symm (hc.ne_fin h₀)
        · exact Regex.final_alt_inr (hj.final hp)
    · have hnone : ∀ l t, c.target s l ≠ some t := fun l t h => hedge ⟨l, t, h⟩
      refine ⟨i.map .inl, fun h => absurd h hs, fun p x t hp ht => ?_, fun hp => ?_⟩
      · rcases offer_union ha hc hd hp ht with ⟨p, hp, h⟩ | ⟨p, hp, h⟩
        · exact hi.union_inl hp h
        · rw [eq_of_passes_of_forall_ne hp hnone] at h
          exact absurd h (hnone _ t)
      · rcases passes_union ha hc hd hp with hp | hp
        · exact Regex.final_alt_inl (hi.final hp)
        · rw [← eq_of_passes_of_forall_ne hp hnone] at hi
          exact Regex.final_alt_inl (hi.final (a.passes_refl .fin))

end Union

/-! ## Repetitions -/

/-- A table that follows an expression which may be empty follows it **with the epsilon
edge** of `start` as well. -/
theorem Follows.optional (ha : a.WellFormed) {τ : r.Position → State} (h : a.Follows r τ)
    (hnull : r.nullable) : a.optional.Follows r τ := by
  intro s
  obtain ⟨c, hc⟩ := h s
  refine ⟨c, hc.start, fun p x t hp ht => ?_, fun hp => ?_⟩
  · obtain ⟨hp, ht⟩ := offer_of_optional ha hp ht
    exact hc.offers p x t hp ht
  · rcases passes_of_optional ha hp with hp | ⟨hs, -⟩
    · exact hc.final hp
    · rw [hc.start hs]
      exact hnull

/-- What follows an expression follows the optional one, which has the same positions in
the same order. -/
theorem Follows.of_self {τ : r.Position → State} (h : a.Follows r τ) : a.Follows r.optional τ := by
  intro s
  obtain ⟨c, hc⟩ := h s
  cases c with
  | none => exact ⟨none, fun _ => rfl, hc.offers, fun _ => trivial⟩
  | some o => exact ⟨some o, fun hs => absurd (hc.start hs) (by simp), hc.offers, hc.final⟩

/-- At least once and any number of times have the same order of positions, too; they
differ in whether they may be empty. -/
theorem Follows.of_plus {τ : r.Position → State} (h : a.Follows r.plus τ) :
    a.Follows r.kleene τ := by
  intro s
  obtain ⟨c, hc⟩ := h s
  cases c with
  | none => exact ⟨none, fun _ => rfl, hc.offers, fun _ => trivial⟩
  | some o => exact ⟨some o, fun hs => absurd (hc.start hs) (by simp), hc.offers, hc.final⟩

/-- A position of the expression enters the state where a round ends **where it
entered `fin`**. -/
def loopPlace (n : Nat) (τ : r.Position → State) (p : r.plus.Position) : State :=
  if τ p = .fin then again n else τ p

section Plus

variable {τ : r.Position → State}

/-- What comes next within a round comes next in the table without its end. Moving the
end takes away no token edge. -/
theorem Tracks.round {d : Option r.Position} (hd : a.Tracks r τ s d) {p : State} (hp : a.Passes s p)
    (ht : (a.moveEnd (again n)).target p (.token x) = some t) :
    ∃ o, r.After d o ∧ r.symbol o = x ∧ loopPlace n τ o = t := by
  obtain ⟨-, t₀, ht₀, rfl⟩ := target_moveEnd.mp ht
  obtain ⟨o, ho, hsymbol, rfl⟩ := hd.offers p x t₀ hp ht₀
  exact ⟨o, ho, hsymbol, rfl⟩

/-- Where a round may end, what opens the next one comes after. The first edges have
been copied to where the round ends. -/
theorem Follows.next (h : a.Follows r τ) {d : Option r.Position} (hd : r.Final d)
    (ht : (a.moveEnd (again n)).target .start (.token x) = some t) :
    ∃ o, r.plus.After d o ∧ r.plus.symbol o = x ∧ loopPlace n τ o = t := by
  obtain ⟨e, he⟩ := h .start
  obtain rfl := he.start rfl
  obtain ⟨o, ho, hsymbol, hτ⟩ := he.round (a.passes_refl .start) ht
  exact ⟨o, Regex.after_plus_of_final hd ho, hsymbol, hτ⟩

/-- A table turned back upon itself follows the repetition: where a round has ended,
**what begins the expression** comes next. -/
theorem Follows.looped (ha : a.WellFormed) (hw : a.Within n) (h : a.Follows r τ) :
    (looped n a).Follows r.plus (loopPlace n τ) := by
  intro s
  by_cases hs : s = again n
  · -- the state where rounds end stands where the expression ends
    subst hs
    obtain ⟨d, hd⟩ := h .fin
    have hend : r.Final d := hd.final (a.passes_refl .fin)
    have hnone : ∀ l t, a.target (again n) l ≠ some t :=
      fun l t ht => again_notMem hw (source_mem_states ht)
    refine ⟨d, fun hstart => absurd hstart again_ne_start, fun p x t hp ht => ?_,
      fun _ => Regex.final_plus hend⟩
    rcases offer_of_looped ha hw hp ht with ⟨hp, ht⟩ | ⟨-, ht⟩
    · obtain ⟨-, t₀, ht₀, -⟩ := target_moveEnd.mp ht
      rw [eq_of_passes_of_forall_ne hp hnone] at ht₀
      exact absurd ht₀ (hnone _ t₀)
    · exact h.next hend ht
  · -- any other state stands where it stood, with the next round in sight where this one may end
    obtain ⟨d, hd⟩ := h s
    refine ⟨d, hd.start, fun p x t hp ht => ?_, fun hp => ?_⟩
    · rcases offer_of_looped ha hw hp ht with ⟨hp, ht⟩ | ⟨hcase, ht⟩
      · obtain ⟨o, ho, hsymbol, hτ⟩ := hd.round hp ht
        exact ⟨o, Regex.after_plus ho, hsymbol, hτ⟩
      · rcases hcase with hcontra | ⟨-, -, hp⟩
        · exact absurd hcontra hs
        · exact h.next (hd.final hp) ht
    · rcases passes_looped ha hw hp with hp | ⟨hcontra, -⟩ | ⟨hcontra, -⟩
      · exact Regex.final_plus (hd.final hp)
      · exact absurd hcontra.symm again_ne_fin
      · exact absurd hcontra hs

end Plus

/-- So does at least once, with the epsilon edge at `start` if the expression may
be empty. -/
theorem Follows.plus (ha : a.WellFormed) (hw : a.Within n) {τ : r.Position → State}
    (h : a.Follows r τ) (hnull : (a.epsilon .start).isSome = true → r.nullable) :
    (Automaton.plus n a).automaton.Follows r.plus (loopPlace n τ) :=
  plus_induction (motive := fun b => b.Follows r.plus (loopPlace n τ)) n a
    (fun heps => (h.looped ha hw).optional (ha.looped hw) (hnull heps)) fun _ => h.looped ha hw

/-- A first table that follows a one-unambiguous sequence has **no edge for a token that
opens the second**, wherever it may end. -/
theorem Follows.left_free {τ : r.Position → State} {υ : q.Position → State} (hfa : a.Follows r τ)
    (hfb : (right n a b).Follows q υ) (h : (r.seq q).OneUnambiguous) (hp : a.Passes s .fin)
    (ht : (right n a b).target .start (.token x) = some t) :
    (left n a b).target s (.token x) = none := by
  rw [Option.eq_none_iff_forall_ne_some]
  intro t' ht'
  obtain ⟨-, t₀, ht₀, -⟩ := target_moveEnd.mp ht'
  obtain ⟨c, hc⟩ := hfa s
  obtain ⟨o, ho, hsymbol, -⟩ := hc.offers s x t₀ (a.passes_refl s) ht₀
  obtain ⟨o', ho', hsymbol', -⟩ := hfb.first ht
  exact h.symbol_ne ho (hc.final hp) ho' (hsymbol.trans hsymbol'.symm)

/-- One table after another loses nothing for a one-unambiguous sequence. A collision
would be two positions of one token that come after the same place. -/
theorem Follows.append_collisions_eq_nil (ha : a.WellFormed) (hb : b.WellFormed) (hwa : a.Within n)
    (hwb : b.Within n) {τ : r.Position → State} {υ : q.Position → State} (hfa : a.Follows r τ)
    (hfb : (right n a b).Follows q υ) (h : (r.seq q).OneUnambiguous) :
    (Automaton.append n a b).collisions = [] := by
  apply (append_collisions ha hb hwa hwb).mpr
  constructor
  · intro s hs x t ht
    have hfin := ((mem_feeders_iff ha hwa).mp hs).2.2
    exact hfa.left_free hfb h hfin ht
  · intro hnull l t ht
    cases l with
    | epsilon => exact epsilon_start_moveEnd a _
    | token x =>
        have hfin := ha.passes_start_fin.mpr hnull
        exact hfa.left_free hfb h hfin ht

/-- One table or another loses nothing for a one-unambiguous choice: no token opens
both. Collisions of a choice are met at `start` only. -/
theorem Follows.union_collisions_eq_nil (ha : a.WellFormed) (hc : c.WellFormed) (hd : a.Disjoint c)
    {τ : r.Position → State} {υ : q.Position → State} (hfa : a.Follows r τ) (hfc : c.Follows q υ)
    (h : (r.alt q).OneUnambiguous) : (a.insertAllKeeping c.edges).2 = [] := by
  apply (union_collisions ha hc hd).mpr
  intro x t ht
  left
  rw [Option.eq_none_iff_forall_ne_some]
  intro t' ht'
  obtain ⟨o, ho, hsymbol, -⟩ := hfa.first ht'
  obtain ⟨o', ho', hsymbol', -⟩ := hfc.first ht
  exact h.symbol_first_ne ho ho' (hsymbol.trans hsymbol'.symm)

/-- A table that follows a one-unambiguous expression has **no shadowed edges**. Two
edges for one token on a chain would lead to two positions that come next. -/
theorem Follows.coherent {τ : r.Position → State} (h : a.Follows r τ) (hr : r.OneUnambiguous) :
    a.Coherent := by
  intro s p p' x t t' hp hp' ht ht'
  obtain ⟨c, hc⟩ := h s
  obtain ⟨o, ho, hsymbol, rfl⟩ := hc.offers p x t hp ht
  obtain ⟨o', ho', hsymbol', rfl⟩ := hc.offers p' x t' hp' ht'
  rw [(Regex.oneUnambiguous_iff r).mp hr c o o' ho ho' (hsymbol.trans hsymbol'.symm)]

end Automaton

/-! ## Made tables -/

namespace Made

variable {r : Regex} {a : Automaton} {cs : List Collision}

/-- A made table **follows its expression**, whatever was lost. By induction on how it
is made. An edge that gave way is missing, which leaves fewer edges to account for. -/
theorem follows (h : Made r a cs) : ∃ τ, a.Follows r τ := by
  induction h with
  | one => exact ⟨_, follows_emptyWord⟩
  | token x => exact ⟨_, follows_single x⟩
  -- the second table is copied first if it shares states with the first
  | @seq r s a b _ _ n ha hb hwa hwb iha ihb =>
      obtain ⟨τ, hτ⟩ := iha
      obtain ⟨υ, hυ⟩ := ihb
      obtain ⟨υ', hυ'⟩ := hυ.apart n a
      exact ⟨_, .append ha.wellFormed hb.wellFormed hwa hwb hτ hυ'⟩
  | @alt r s a b _ _ n ha hb hwa _ iha ihb =>
      obtain ⟨τ, hτ⟩ := iha
      obtain ⟨υ, hυ⟩ := ihb
      obtain ⟨υ', hυ'⟩ := hυ.apart n a
      exact ⟨_, .union ha.wellFormed (hb.wellFormed.apart n a) (disjoint_apart b hwa) hτ hυ'⟩
  | optional ha ih =>
      obtain ⟨τ, hτ⟩ := ih
      exact ⟨τ, hτ.of_self.optional ha.wellFormed trivial⟩
  | kleene n ha hwa ih =>
      obtain ⟨τ, hτ⟩ := ih
      exact ⟨_, (hτ.plus ha.wellFormed hwa ha.epsilon_start_iff.mp).of_plus.optional
        (ha.wellFormed.plus hwa) trivial⟩
  | plus n ha hwa ih =>
      obtain ⟨τ, hτ⟩ := ih
      exact ⟨_, hτ.plus ha.wellFormed hwa ha.epsilon_start_iff.mp⟩
  | copy n _ ih =>
      obtain ⟨τ, hτ⟩ := ih
      exact hτ.copy n

/-- For a one-unambiguous expression **nothing is lost**. By induction on how it is
made; that its parts are one-unambiguous, too, comes from the positions of the parts. -/
theorem eq_nil (h : Made r a cs) (hr : r.OneUnambiguous) : cs = [] := by
  induction h with
  | one => rfl
  | token _ => rfl
  -- the tables follow their expressions, so a collision would show in the positions
  | @seq r s a b _ _ n ha hb hwa hwb iha ihb =>
      obtain ⟨τ, hτ⟩ := ha.follows
      obtain ⟨υ, hυ⟩ := hb.follows
      obtain ⟨υ', hυ'⟩ := hυ.apart n a
      rw [iha hr.of_seq.1, ihb hr.of_seq.2,
        hτ.append_collisions_eq_nil ha.wellFormed hb.wellFormed hwa hwb hυ' hr]
      rfl
  | @alt r s a b _ _ n ha hb hwa _ iha ihb =>
      obtain ⟨τ, hτ⟩ := ha.follows
      obtain ⟨υ, hυ⟩ := hb.follows
      obtain ⟨υ', hυ'⟩ := hυ.apart n a
      rw [iha hr.of_alt.1, ihb hr.of_alt.2, merge_eq,
        hτ.union_collisions_eq_nil ha.wellFormed (hb.wellFormed.apart n a)
          (disjoint_apart b hwa) hυ' hr]
      rfl
  | optional _ ih => exact ih hr.of_optional
  | kleene _ _ _ ih => exact ih hr.of_kleene
  | plus _ _ _ ih => exact ih hr.of_plus
  | copy _ _ ih => exact ih hr

/-- For a one-unambiguous expression **no edge is shadowed**. Repetitions are included
here, unlike where only the absence of losses is known. -/
theorem coherent_of_oneUnambiguous (h : Made r a cs) (hr : r.OneUnambiguous) : a.Coherent := by
  obtain ⟨τ, hτ⟩ := h.follows
  exact hτ.coherent hr

end Made

end TreeGrammar
