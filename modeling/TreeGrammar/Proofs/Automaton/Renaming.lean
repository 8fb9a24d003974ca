/-
Tables that differ in the names of their states.

A table is carried to another on a **domain** of its states, edge by edge, and of these
only `fin` is sent to `fin`. The domain is closed under edges, so a run that starts in
it stays in it and is followed step by step on the other side (`Carries`). A renaming
does so with both shared states, one to one. A copy renames all states; an encoding that
is read back renames those that can be reached; and a table that is put into another is
carried there without new names.
-/
import TreeGrammar.Proofs.Automaton.Shape

set_option autoImplicit false

namespace TreeGrammar.Automaton

/-- On the domain `p`, which no edge of `a` leaves, `b` has the edges of `a` **under
other names**: what is `s` in `a` is `f s` in `b`, and only `fin` is named `fin`. -/
structure Carries (f : State → State) (p : State → Prop) (a b : Automaton) : Prop where
  closed : ∀ s l t, p s → a.target s l = some t → p t
  target_eq : ∀ s l, p s → b.target (f s) l = (a.target s l).map f
  fin_iff : ∀ s, p s → (f s = .fin ↔ s = .fin)

namespace Carries

variable {f : State → State} {p : State → Prop} {a b : Automaton} {s t r : State}

/-- The epsilon edge of the image is the image of the epsilon edge. -/
theorem epsilon_eq (h : Carries f p a b) (hs : p s) : b.epsilon (f s) = (a.epsilon s).map f :=
  h.target_eq s .epsilon hs

/-- A chain does not leave the part that is carried. -/
theorem mem_of_passes (h : Carries f p a b) (hs : p s) (hp : a.Passes s t) : p t := by
  induction hp with
  | refl => exact hs
  | tail _ hstep ih => exact h.closed _ _ _ ih hstep

theorem passes (h : Carries f p a b) (hs : p s) (hp : a.Passes s t) : b.Passes (f s) (f t) := by
  induction hp using Relation.ReflTransGen.head_induction_on with
  | refl => exact b.passes_refl _
  | head hstep _ ih =>
      have hr := h.closed _ _ _ hs hstep
      refine (ih hr).head ?_
      rw [h.epsilon_eq hs, hstep, Option.map_some]

/-- What a renamed state passes to is itself a renamed state. The chain of the image has
no states of its own, so it can be followed back. -/
theorem exists_of_passes (h : Carries f p a b) (hs : p s) (hp : b.Passes (f s) r) :
    ∃ t, f t = r ∧ a.Passes s t := by
  induction hp with
  | refl => exact ⟨s, rfl, a.passes_refl s⟩
  | tail _ hstep ih =>
      obtain ⟨q, rfl, hq⟩ := ih
      rw [h.epsilon_eq (h.mem_of_passes hs hq)] at hstep
      obtain ⟨t, ht, rfl⟩ := Option.map_eq_some_iff.mp hstep
      exact ⟨t, rfl, hq.tail ht⟩

/-- A token that is taken along a chain is taken along the image. That it is taken
**nowhere before** is part of what is carried: a state without the edge has an image
without it. -/
theorem takes (h : Carries f p a b) {x : Token} (hs : p s) (ht : a.Takes x s t) :
    b.Takes x (f s) (f t) := by
  induction ht with
  | here ht => exact .here (by rw [h.target_eq _ _ hs, ht, Option.map_some])
  | later hnone hr _ ih =>
      refine .later (by rw [h.target_eq _ _ hs, hnone, Option.map_none])
        (by rw [h.epsilon_eq hs, hr, Option.map_some]) ?_
      exact ih (h.closed _ _ _ hs hr)

/-- A renamed state **takes the same tokens**. The first edge on the chain is found at
the same place on both sides. -/
theorem consume_eq (h : Carries f p a b) (hs : p s) (x : Token) :
    b.consume (f s) x = (a.consume s x).map f := by
  cases ha : a.consume s x with
  | some t =>
      rw [Option.map_some]
      exact consume_eq_some_iff.mpr (h.takes hs (consume_eq_some_iff.mp ha))
  | none =>
      rw [Option.map_none]
      cases hb : b.consume (f s) x with
      | none => rfl
      | some t' =>
          -- an edge that the renamed state takes is a renamed edge, so the state would take
          -- one as well
          obtain ⟨r', hr', ht'⟩ := exists_of_consume hb
          obtain ⟨r, rfl, hr⟩ := h.exists_of_passes hs hr'
          rw [h.target_eq _ _ (h.mem_of_passes hs hr)] at ht'
          obtain ⟨t, ht, -⟩ := Option.map_eq_some_iff.mp ht'
          obtain ⟨t₀, ht₀⟩ := exists_consume hr ht
          exact absurd (ht₀.symm.trans ha) (by simp)

/-- A token taken within the carried part stays in it. -/
theorem mem_of_consume (h : Carries f p a b) {x : Token} (hs : p s)
    (hc : a.consume s x = some t) : p t := by
  obtain ⟨r, hr, ht⟩ := exists_of_consume hc
  exact h.closed _ _ _ (h.mem_of_passes hs hr) ht

/-- The content may end at the image exactly if it may end at the state. -/
theorem isFinished_eq (h : Carries f p a b) (hs : p s) : b.isFinished (f s) = a.isFinished s := by
  rw [Bool.eq_iff_iff, isFinished_iff, isFinished_iff]
  constructor
  · intro hp
    obtain ⟨t, ht, hst⟩ := h.exists_of_passes hs hp
    rw [(h.fin_iff t (h.mem_of_passes hs hst)).mp ht] at hst
    exact hst
  · intro hp
    have hf := h.passes hs hp
    rw [(h.fin_iff .fin (h.mem_of_passes hs hp)).mpr rfl] at hf
    exact hf

end Carries

/-- The function `f` **renames** the states of `a` in the domain `p` to
states of `b`. -/
structure Renames (f : State → State) (p : State → Prop) (a b : Automaton) : Prop where
  start_mem : p .start
  apply_start : f .start = .start
  apply_fin : f .fin = .fin
  closed : ∀ s l t, p s → a.target s l = some t → p t
  injective : ∀ s t, p s → p t → f s = f t → s = t
  fin_mem : p .fin
  target_eq : ∀ s l, p s → b.target (f s) l = (a.target s l).map f

/-- A renaming of the whole table carries all of it. Everything that is shown of a part
can then be used of a renamed table. -/
theorem Renames.carries {f : State → State} {p : State → Prop} {a b : Automaton}
    (h : Renames f p a b) : Carries f p a b where
  closed := h.closed
  target_eq := h.target_eq
  fin_iff s hs := by
    refine ⟨fun hf => h.injective s .fin hs h.fin_mem (hf.trans h.apply_fin.symm), ?_⟩
    rintro rfl
    exact h.apply_fin

/-- A table with **the same edges** as another on a domain carries it there, under
the same names. Edges that are put in elsewhere do not change what is taken on
such a domain. -/
theorem carries_of_target_eq {p : State → Prop} {a b : Automaton}
    (htarget : ∀ s l t, p s → (b.target s l = some t ↔ a.target s l = some t))
    (hclosed : ∀ s l t, p s → a.target s l = some t → p t) : Carries id p a b where
  closed := hclosed
  target_eq s l hs := by
    rw [Option.map_id, id, id]
    exact Option.ext fun t => htarget s l t hs
  fin_iff _ _ := Iff.rfl

/-- A table all of whose edges are renamed edges of another **keeps the rules** that the
other keeps. Both the copy of a table and the table with its end moved are images in
this sense. -/
theorem WellFormed.of_image {f : State → State} {a b : Automaton} (h : a.WellFormed)
    (hinj : ∀ s ∈ a.states, ∀ t ∈ a.states, f s = f t → s = t) (hstart : f .start = .start)
    (hfin : f .fin = .fin)
    (himage : ∀ s' l t', b.target s' l = some t' →
      ∃ s t, f s = s' ∧ f t = t' ∧ a.target s l = some t) : b.WellFormed := by
  -- an edge at a shared state is the image of one at that state, because no other state is
  -- renamed to it
  refine ⟨fun s' l hst => ?_, fun l => ?_, fun t' ht' => ?_, fun s' => ?_⟩
  · obtain ⟨s, t, -, ht, hst⟩ := himage s' l .start hst
    rw [← hstart] at ht
    have heq := hinj t (target_mem_states hst) .start a.start_mem_states ht
    exact h.ne_start hst heq
  · rw [Option.eq_none_iff_forall_ne_some]
    intro t' ht'
    obtain ⟨s, t, hs, -, hst⟩ := himage .fin l t' ht'
    rw [← hfin] at hs
    have heq := hinj s (source_mem_states hst) .fin a.fin_mem_states hs
    exact h.ne_fin hst heq
  · obtain ⟨s, t, hs, rfl, hst⟩ := himage .start .epsilon t' ht'
    rw [← hstart] at hs
    have heq := hinj s (source_mem_states hst) .start a.start_mem_states hs
    rw [heq] at hst
    rw [h.epsilon_start t hst, hfin]
  · -- the chain of a renamed state is no longer than that of the state; other states have no edges
    have himages : ∀ s, a.Halts s → s ∈ a.states → b.Halts (f s) := by
      intro s hs
      induction hs with
      | intro s _ ih =>
          intro hmem
          refine Acc.intro (f s) fun q hq => ?_
          obtain ⟨r, t, hr, rfl, hrt⟩ := himage (f s) .epsilon q hq
          have heq := hinj r (source_mem_states hrt) s hmem hr
          rw [heq] at hrt
          exact ih t hrt (target_mem_states hrt)
    refine Acc.intro s' fun q hq => ?_
    obtain ⟨s, t, -, rfl, hst⟩ := himage s' .epsilon q hq
    exact himages t (h.halts t) (target_mem_states hst)

/-! ## Copies -/

variable {a : Automaton} {s t : State} {n : Nat}

theorem renumbering_of_isShared (h : s.isShared = true) : renumbering n a.inner s = s := by
  have hnone : a.inner.idxOf? s = none := by
    rw [List.idxOf?_eq_none_iff]
    intro hmem
    have hinner := (mem_inner_iff.mp hmem).2
    rw [h] at hinner
    exact absurd hinner (by simp)
  rw [renumbering, hnone]

/-- A numbered state of the table gets a number **beyond** those drawn. The number is
one more than those drawn, and further on by the place of the state. -/
theorem exists_renumbering (hmem : s ∈ a.states) (h : s.isShared = false) :
    ∃ i < a.inner.length, a.inner[i]? = some s ∧ renumbering n a.inner s = .id (n + 1 + i) := by
  have hinner : s ∈ a.inner := mem_inner_iff.mpr ⟨hmem, h⟩
  cases hi : a.inner.idxOf? s with
  | none => exact absurd hinner (List.idxOf?_eq_none_iff.mp hi)
  | some i =>
      have hfind := List.findIdx?_eq_some_iff_getElem.mp hi
      obtain ⟨hlt, hget, -⟩ := hfind
      refine ⟨i, hlt, ?_, by rw [renumbering, hi]⟩
      rw [List.getElem?_eq_getElem hlt, Option.some.injEq]
      simpa using hget

/-- A copy **tells states apart**: numbered ones get the next numbers in their order.
Two states of a table never meet in one row of its copy. -/
theorem renumbering_injective (hs : s ∈ a.states) (ht : t ∈ a.states)
    (h : renumbering n a.inner s = renumbering n a.inner t) : s = t := by
  -- shared states stay what they are, and numbered ones become numbered by their places
  cases hss : s.isShared with
  | true =>
      rw [renumbering_of_isShared hss] at h
      cases hts : t.isShared with
      | true => rwa [renumbering_of_isShared hts] at h
      | false =>
          obtain ⟨i, -, -, hi⟩ := exists_renumbering (n := n) ht hts
          rw [h, hi] at hss
          exact absurd hss (by simp [State.isShared])
  | false =>
      obtain ⟨i, -, hget, hi⟩ := exists_renumbering (n := n) hs hss
      cases hts : t.isShared with
      | true =>
          rw [renumbering_of_isShared hts, hi] at h
          rw [← h] at hts
          exact absurd hts (by simp [State.isShared])
      | false =>
          obtain ⟨j, -, hget', hj⟩ := exists_renumbering (n := n) ht hts
          rw [hi, hj, State.id.injEq] at h
          have hij : i = j := by omega
          rw [hij, hget'] at hget
          exact (Option.some.inj hget).symm

/-- The edges of a renamed table are the renamed edges, if the renaming tells the states
of the table apart. Otherwise one edge might replace another. -/
theorem target_rename {f : State → State}
    (hf : ∀ s ∈ a.states, ∀ t ∈ a.states, f s = f t → s = t) (s' t' : State) (l : Label) :
    (a.rename f).target s' l = some t' ↔
      ∃ s t, f s = s' ∧ f t = t' ∧ a.target s l = some t := by
  have hmem : ∀ e : Edge, e ∈ a.edges.map (fun e => (⟨f e.source, e.label, f e.target⟩ : Edge)) ↔
      ∃ s t, f s = e.source ∧ f t = e.target ∧ a.target s e.label = some t := by
    intro e
    rw [List.mem_map]
    constructor
    · rintro ⟨e', he', rfl⟩
      exact ⟨e'.source, e'.target, rfl, rfl, (a.mem_edges_iff e').mp he'⟩
    · rintro ⟨s, t, hs, ht, h⟩
      exact ⟨⟨s, e.label, t⟩, (a.mem_edges_iff _).mpr h, by rw [hs, ht]⟩
  have hagree : Edge.Agree (a.edges.map fun e => (⟨f e.source, e.label, f e.target⟩ : Edge)) :=
    agree_of_image hf fun e he => (hmem e).mp he
  rw [rename, target_ofEdges hagree, hmem]

/-- The edges of a copy. They are the edges of the table with both ends renumbered, and
no others. -/
theorem target_copy (a : Automaton) (n : Nat) (s' t' : State) (l : Label) :
    (a.copy n).automaton.target s' l = some t' ↔ ∃ s t, renumbering n a.inner s = s' ∧
      renumbering n a.inner t = t' ∧ a.target s l = some t :=
  target_rename (fun _ hs _ ht => renumbering_injective hs ht) s' t' l

/-- A copy **renames** every state of the table. So the copy spells the same words,
takes the same tokens and keeps the same rules. -/
theorem renames_copy (a : Automaton) (n : Nat) :
    Renames (renumbering n a.inner) (· ∈ a.states) a (a.copy n).automaton where
  start_mem := a.start_mem_states
  apply_start := renumbering_of_isShared rfl
  apply_fin := renumbering_of_isShared rfl
  closed _ _ _ _ h := target_mem_states h
  injective _ _ hs ht h := renumbering_injective hs ht h
  fin_mem := a.fin_mem_states
  target_eq s l hs := by
    cases h : a.target s l with
    | some t => exact (target_copy a n _ _ l).mpr ⟨s, t, rfl, rfl, h⟩
    | none =>
        rw [Option.map_none]
        cases hc : (a.copy n).automaton.target (renumbering n a.inner s) l with
        | none => rfl
        | some t' =>
            obtain ⟨r, t, hr, -, hrt⟩ := (target_copy a n _ t' l).mp hc
            rw [renumbering_injective (source_mem_states hrt) hs hr, h] at hrt
            exact absurd hrt (by simp)

/-- A state of a copy is shared, or has a number that the copy drew. The copies that an
expression needs are kept apart by this. -/
theorem mem_states_copy {k : Nat} (h : State.id k ∈ (a.copy n).automaton.states) :
    n < k ∧ k ≤ (a.copy n).drawn := by
  -- a number comes from a numbered state, and these get the next ones in their order
  have hnumber : ∀ s ∈ a.states, renumbering n a.inner s = .id k →
      n < k ∧ k ≤ (a.copy n).drawn := by
    intro s hs heq
    cases hss : s.isShared with
    | true =>
        rw [renumbering_of_isShared hss] at heq
        rw [heq] at hss
        exact absurd hss (by simp [State.isShared])
    | false =>
        obtain ⟨i, hi, -, hid⟩ := exists_renumbering (n := n) hs hss
        rw [hid, State.id.injEq] at heq
        have hdrawn : (a.copy n).drawn = n + a.inner.length := rfl
        omega
  rcases (mem_states_iff _ _).mp h with heq | heq | ⟨l, t', ht⟩ | ⟨s', l, ht⟩
  · exact absurd heq (by simp)
  · exact absurd heq (by simp)
  · obtain ⟨s, t, hs, -, hst⟩ := (target_copy a n _ _ l).mp ht
    exact hnumber s (source_mem_states hst) hs
  · obtain ⟨s, t, -, htk, hst⟩ := (target_copy a n _ _ l).mp ht
    exact hnumber t (target_mem_states hst) htk

/-- A copy is within the number that was drawn last. -/
theorem within_copy (a : Automaton) (n : Nat) : (a.copy n).automaton.Within (a.copy n).drawn :=
  fun _ hk => (mem_states_copy hk).2

theorem le_drawn_copy (a : Automaton) (n : Nat) : n ≤ (a.copy n).drawn := Nat.le_add_right ..

/-- A copy keeps the rules. -/
theorem WellFormed.copy (h : a.WellFormed) (n : Nat) : (a.copy n).automaton.WellFormed :=
  h.of_image (fun _ hs _ ht => renumbering_injective hs ht) (renames_copy a n).apply_start
    (renames_copy a n).apply_fin fun s' l t' => (target_copy a n s' t' l).mp

/-! ## Keeping two tables apart -/

/-- What an operator puts beside the first table: the second one, or a copy of it, with
**no numbered state in common**. -/
theorem apart_disjoint (a b : Automaton) {n k : Nat} (ha : a.Within n)
    (hk : State.id k ∈ a.states) : State.id k ∉ (apart n a b).automaton.states := by
  unfold apart
  by_cases h : a.overlaps b = true
  · rw [if_pos h]
    intro hmem
    have hlt := (mem_states_copy hmem).1
    have hle := ha k hk
    omega
  · rw [if_neg h]
    intro hmem
    refine h ?_
    unfold overlaps
    rw [List.any_eq_true]
    exact ⟨.id k, mem_inner_iff.mpr ⟨hmem, rfl⟩,
      decide_eq_true (mem_inner_iff.mpr ⟨hk, rfl⟩)⟩

/-- Whatever holds of the second table and of its copies holds of what is put beside the
first. A property of tables that copying keeps need not be shown twice for the two cases
of putting a table beside another. -/
theorem apart_induction {motive : Built → Prop} (n : Nat) (a b : Automaton)
    (same : motive ⟨b, n, []⟩) (copied : motive (copy n b)) : motive (apart n a b) := by
  unfold apart
  by_cases h : a.overlaps b = true
  · rw [if_pos h]
    exact copied
  · rw [if_neg h]
    exact same

theorem le_drawn_apart (n : Nat) (a b : Automaton) : n ≤ (apart n a b).drawn :=
  apart_induction (motive := fun d => n ≤ d.drawn) n a b (Nat.le_refl n) (le_drawn_copy b n)

theorem within_apart {b : Automaton} (a : Automaton) (hb : b.Within n) :
    (apart n a b).automaton.Within (apart n a b).drawn :=
  apart_induction (motive := fun d => d.automaton.Within d.drawn) n a b hb (within_copy b n)

/-- What is put beside the first table keeps the rules. -/
theorem WellFormed.apart {b : Automaton} (hb : b.WellFormed) (n : Nat) (a : Automaton) :
    (Automaton.apart n a b).automaton.WellFormed :=
  apart_induction (motive := fun d => d.automaton.WellFormed) n a b hb (hb.copy n)

/-- The second table has an edge of a label at `start` **exactly when what is put beside
the first has one**. -/
theorem exists_target_start_apart (n : Nat) (a b : Automaton) (l : Label) :
    (∃ t, (apart n a b).automaton.target .start l = some t) ↔ ∃ t, b.target .start l = some t := by
  refine apart_induction
    (motive := fun d => (∃ t, d.automaton.target .start l = some t) ↔ ∃ t, b.target .start l =
      some t) n a b Iff.rfl ?_
  have htarget := (renames_copy b n).target_eq .start l b.start_mem_states
  rw [(renames_copy b n).apply_start] at htarget
  rw [htarget]
  cases b.target .start l <;> simp

end TreeGrammar.Automaton
