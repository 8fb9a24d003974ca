/-
Tables without dead ends.

An edge that leads nowhere would do harm to a validator: a token might be taken that no
word of the content goes on with, and the mistake would show only later, or at the end.
The operators make no such edges. Whatever an edge of one of their tables enters, the
goal can still be reached from there, and some edge leaves `start`; both hold of a
single token, and each operator keeps them. So a table takes a token behind a word
exactly when a word that it spells goes on with it, as far as no edge is shadowed
(`Made.exists_run_iff`): what is rejected is rejected at the first token that no word of
the language has at its place.
-/
import TreeGrammar.Proofs.Compile.Made

set_option autoImplicit false

namespace TreeGrammar

namespace Automaton

/-- What an edge enters **leads on to the end**. -/
def Trim (a : Automaton) : Prop := ∀ s l t, a.target s l = some t → ∃ w, a.Path .fin t w

/-- Some edge **leaves `start`**. -/
def Opens (a : Automaton) : Prop := ∃ l t, a.target .start l = some t

variable {n : Nat} {a b c : Automaton} {s t : State} {l : Label} {u w : List Token}

/-- A table without dead ends that has an edge at `start` spells a word. That edge
enters a state from which the end is reached. -/
theorem Trim.exists_path_start (h : a.Trim) (hopens : a.Opens) : ∃ w, a.Path .fin .start w := by
  obtain ⟨l, t, ht⟩ := hopens
  obtain ⟨w, hw⟩ := h _ _ _ ht
  exact ⟨l.word ++ w, hw.step ht⟩

/-- However far a word has been read, **some word goes on** from there to the end.
A token read is a step along the chain and over an edge, and behind that edge the
path is given. -/
theorem Trim.exists_path_of_run (h : a.Trim) (hopens : a.Opens) (hrun : a.run .start u = some s) :
    ∃ w, a.Path .fin s w := by
  rcases List.eq_nil_or_concat u with rfl | ⟨v, x, rfl⟩
  · obtain rfl := Option.some.inj hrun
    exact h.exists_path_start hopens
  · -- the last token was taken by an edge, and that edge has entered the state
    rw [List.concat_eq_append, run_append] at hrun
    obtain ⟨q, -, hlast⟩ := Option.bind_eq_some_iff.mp hrun
    rw [run] at hlast
    cases hc : a.consume q x with
    | none => simp [hc] at hlast
    | some r =>
        rw [hc] at hlast
        obtain rfl := Option.some.inj hlast
        obtain ⟨p, -, hp⟩ := exists_of_consume hc
        exact h _ _ _ hp

/-! ## Single tokens and copies -/

theorem trim_blank : blank.Trim := fun _ _ _ h => absurd h (by simp)

theorem trim_single (x : Token) : (single x).Trim := by
  intro s l t h
  obtain ⟨-, -, rfl⟩ := target_single.mp h
  exact ⟨[], .refl⟩

theorem opens_single (x : Token) : (single x).Opens :=
  ⟨.token x, .fin, target_single.mpr ⟨rfl, rfl, rfl⟩⟩

/-- Each edge of a copy is a copied edge, and the path behind it is copied with it. -/
theorem Trim.copy (h : a.Trim) (n : Nat) : (a.copy n).automaton.Trim := by
  intro s' l t' hst
  obtain ⟨s, t, -, rfl, ht⟩ := (target_copy a n s' t' l).mp hst
  obtain ⟨w, hw⟩ := h _ _ _ ht
  exact ⟨w, (renames_copy a n).path (target_mem_states ht) hw⟩

/-- What is put beside the first table has no dead ends either. It is the second table
or a copy of it. -/
theorem Trim.apart (h : b.Trim) (n : Nat) (a : Automaton) :
    (Automaton.apart n a b).automaton.Trim :=
  apart_induction (motive := fun d => d.automaton.Trim) n a b h (h.copy n)

/-- A copy has the edges of `start` under the same labels. -/
theorem Opens.copy (h : a.Opens) (n : Nat) : (a.copy n).automaton.Opens := by
  obtain ⟨l, t, ht⟩ := h
  refine ⟨l, renumbering n a.inner t, (target_copy a n _ _ l).mpr ⟨.start, t, ?_, rfl, ht⟩⟩
  exact (renames_copy a n).apply_start

theorem Opens.apart (h : b.Opens) (n : Nat) (a : Automaton) :
    (Automaton.apart n a b).automaton.Opens :=
  apart_induction (motive := fun d => d.automaton.Opens) n a b h (h.copy n)

/-! ## Once or not at all -/

/-- The new edge enters `fin`, and behind the others everything is as it was. Paths are
kept, except that the epsilon edge of `start` may have been another one before. -/
theorem Trim.optional (ha : a.WellFormed) (h : a.Trim) : a.optional.Trim := by
  intro s l t hst
  rcases target_of_optional hst with ⟨-, -, rfl⟩ | hst
  · exact ⟨[], .refl⟩
  · obtain ⟨w, hw⟩ := h _ _ _ hst
    refine ⟨w, hw.mono_of_ne_start ha (fun q l r hq hr => ?_) (ha.ne_start hst)⟩
    rw [target_optional_of_ne fun e => hq e.1, hr]

/-- An optional table has at least its epsilon edge. -/
theorem opens_optional (a : Automaton) : a.optional.Opens :=
  ⟨.epsilon, .fin, epsilon_start_optional a⟩

/-! ## One after the other -/

section Append

open Appending

variable (ha : a.WellFormed) (hb : b.WellFormed) (hwa : a.Within n) (hwb : b.Within n)
include ha hb hwa hwb

/-- From the join the second table is read, **if an edge enters it**. If no edge enters
the join, nothing has to be shown of it. -/
theorem exists_path_append_join (htrim : (right n a b).Trim) (hopens : (right n a b).Opens)
    (hjoin : entersJoin n a b = true) :
    ∃ w, (append n a b).automaton.Path .fin (join n a b) w := by
  obtain ⟨w, hw⟩ := htrim.exists_path_start hopens
  exact ⟨w, path_append_opening ha hb hwa hwb (fun _ _ ht => .joined hjoin ht) hw⟩

/-- Behind an edge of the first table its word is read to the join, and then the second
table. Its path to `fin` becomes one to the join, or to `fin` itself where the second
table may be empty. -/
theorem exists_path_append_left (htrima : a.Trim) (htrimb : (right n a b).Trim)
    (hopens : (right n a b).Opens) (h : (left n a b).target s l = some t) :
    ∃ w, (append n a b).automaton.Path .fin t w := by
  obtain ⟨-, t₀, ht₀, rfl⟩ := target_moveEnd.mp h
  by_cases hfin : t₀ = .fin
  · rw [if_pos hfin] at h ⊢
    exact exists_path_append_join ha hb hwa hwb htrimb hopens (entersJoin_of_target h)
  · rw [if_neg hfin]
    obtain ⟨u, hu⟩ := htrima _ _ _ ht₀
    have hleft : (left n a b).Path (join n a b) t₀ u := path_moveEnd ha (ha.ne_start ht₀) hfin hu
    -- the path moves, since the join is none of the table's own states
    have hne : t₀ ≠ join n a b := by
      rintro rfl
      exact join_notMem_left hwa (target_mem_states ht₀)
    obtain ⟨r, l', hr⟩ := hleft.exists_last hne
    obtain ⟨w, hw⟩ :=
      exists_path_append_join ha hb hwa hwb htrimb hopens (entersJoin_of_target hr)
    exact ⟨u ++ w, (path_append_left ha hb hwa hwb hleft).append hw⟩

/-- Behind an edge of the second table everything is as it was there. -/
theorem exists_path_append_right (htrimb : (right n a b).Trim)
    (h : (right n a b).target s l = some t) : ∃ w, (append n a b).automaton.Path .fin t w := by
  obtain ⟨w, hw⟩ := htrimb _ _ _ h
  exact ⟨w, path_append_right ha hb hwa hwb ((right_wellFormed hb).ne_start h) hw⟩

/-- One table after another has **no dead ends**, one case for each kind of edge. An
edge of the result is one of the first table, a copied first edge of the second, or one
of the second. -/
theorem Trim.append (htrima : a.Trim) (htrimb : b.Trim) (hopens : b.Opens) :
    (Automaton.append n a b).automaton.Trim := by
  have htrimr : (right n a b).Trim := htrimb.apart n a
  have hopensr : (right n a b).Opens := hopens.apart n a
  intro s l t hst
  cases (target_append ha hb hwa hwb).mp hst with
  | left h => exact exists_path_append_left ha hb hwa hwb htrima htrimr hopensr h
  | fed _ _ h => exact exists_path_append_right ha hb hwa hwb htrimr h
  | right _ h => exact exists_path_append_right ha hb hwa hwb htrimr h
  | joined _ h => exact exists_path_append_right ha hb hwa hwb htrimr h
  | opened _ _ h => exact exists_path_append_right ha hb hwa hwb htrimr h

/-- An edge of the first table opens the result; where the only one was its epsilon
edge, the second table's edges take its place. -/
theorem Opens.append (hopensa : a.Opens) (hopensb : b.Opens) :
    (Automaton.append n a b).automaton.Opens := by
  obtain ⟨l, t, ht⟩ := hopensa
  cases l with
  | token x =>
      have hleft := (target_moveEnd (q := join n a b)).mpr ⟨by simp, t, ht, rfl⟩
      exact ⟨_, _, (target_append ha hb hwa hwb).mpr (.left hleft)⟩
  | epsilon =>
      obtain ⟨l', t', ht'⟩ := hopensb.apart n a
      have hnull : (a.epsilon .start).isSome = true := Option.isSome_iff_exists.mpr ⟨t, ht⟩
      cases hleft : (left n a b).target .start l' with
      | some q => exact ⟨l', q, (target_append ha hb hwa hwb).mpr (.left hleft)⟩
      | none => exact ⟨l', t', (target_append ha hb hwa hwb).mpr (.opened hnull hleft ht')⟩

end Append

/-! ## One or the other -/

/-- Behind an edge of either table everything is as it was there. Neither table is
entered from the other, so its paths need no change. -/
theorem Trim.union (hc : c.WellFormed) (hd : a.Disjoint c) (ha : a.WellFormed) (htrima : a.Trim)
    (htrimc : c.Trim) : (a.union c).Trim := by
  intro s l t hst
  rcases target_union.mp hst with h | ⟨-, h⟩
  · obtain ⟨w, hw⟩ := htrima _ _ _ h
    exact ⟨w, hw.mono fun q l r hr => target_union.mpr (.inl hr)⟩
  · obtain ⟨w, hw⟩ := htrimc _ _ _ h
    refine ⟨w, hw.mono_of_ne_start hc (fun q l r hq hr => ?_) (hc.ne_start h)⟩
    -- the first table leaves no state of the second but `start`, so nothing of the second
    -- is lost
    have hnone : a.target q l = none := by
      rw [Option.eq_none_iff_forall_ne_some]
      intro r' hr'
      exact hq (hd.eq_start ha hr' (source_mem_states hr))
    exact target_union.mpr (.inr ⟨hnone, hr⟩)

theorem Opens.union (h : a.Opens) (c : Automaton) : (a.union c).Opens := by
  obtain ⟨l, t, ht⟩ := h
  exact ⟨l, t, target_union.mpr (.inl ht)⟩

/-! ## At least once -/

/-- Where a round has ended the rounds may end. -/
theorem path_looped_ends (ha : a.WellFormed) (hw : a.Within n) :
    (looped n a).Path .fin (again n) [] :=
  path_looped_again ha hw (Language.nil_mem_kstar a.spelled)

/-- Within a round the rest of it is read, and then the rounds may end. What is left is
one edge, from the state where the round ends to `fin`. -/
theorem exists_path_looped (ha : a.WellFormed) (hw : a.Within n) (htrim : a.Trim)
    (h : (a.moveEnd (again n)).target s l = some t) : ∃ w, (looped n a).Path .fin t w := by
  obtain ⟨-, t₀, ht₀, rfl⟩ := target_moveEnd.mp h
  by_cases hfin : t₀ = .fin
  · rw [if_pos hfin]
    exact ⟨[], path_looped_ends ha hw⟩
  · rw [if_neg hfin]
    obtain ⟨u, hu⟩ := htrim _ _ _ ht₀
    have hround := path_looped_left hw (path_moveEnd ha (ha.ne_start ht₀) hfin hu)
    exact ⟨u ++ [], hround.append (path_looped_ends ha hw)⟩

/-- Turning a table back upon itself makes no dead ends, one case for each kind of edge.
A copied first edge enters the table where the first edge does. -/
theorem Trim.looped (ha : a.WellFormed) (hw : a.Within n) (htrim : a.Trim) :
    (Automaton.looped n a).Trim := by
  intro s l t hst
  cases (target_looped hw).mp hst with
  | left h => exact exists_path_looped ha hw htrim h
  | again h => exact exists_path_looped ha hw htrim h
  | ends => exact ⟨[], .refl⟩

theorem Trim.plus (ha : a.WellFormed) (hw : a.Within n) (htrim : a.Trim) :
    (Automaton.plus n a).automaton.Trim :=
  plus_induction (motive := Trim) n a (fun _ => (htrim.looped ha hw).optional (ha.looped hw))
    fun _ => htrim.looped ha hw

/-- A table turned back upon itself opens by a token, or is made optional. -/
theorem Opens.plus (hw : a.Within n) (h : a.Opens) : (Automaton.plus n a).automaton.Opens := by
  refine plus_induction (motive := Opens) n a (fun _ => opens_optional _) fun hnull => ?_
  obtain ⟨l, t, ht⟩ := h
  cases l with
  | epsilon =>
      have hsome : (a.epsilon .start).isSome = true := Option.isSome_iff_exists.mpr ⟨t, ht⟩
      exact absurd (hsome.symm.trans hnull) (by simp)
  | token x =>
      have hleft := (target_moveEnd (q := again n)).mpr ⟨by simp, t, ht, rfl⟩
      exact ⟨_, _, (target_looped hw).mpr (.left hleft)⟩

end Automaton

open Automaton

/-! ## Made tables -/

namespace Made

variable {r : Regex} {a : Automaton} {cs : List Collision} {u : List Token} {s : State}

/-- Some edge leaves the `start` of a made table. By induction on how the table is made;
a single token has its own edge, and no operator takes the last one away. -/
theorem opens (h : Made r a cs) : a.Opens := by
  induction h with
  | one => exact opens_optional blank
  | token x => exact opens_single x
  | seq n ha hb hwa hwb iha ihb => exact .append ha.wellFormed hb.wellFormed hwa hwb iha ihb
  | alt n _ _ _ _ iha _ => exact iha.union _
  | optional _ _ => exact opens_optional _
  | kleene n _ _ _ =>
      rw [kleene_eq]
      exact opens_optional _
  | plus n _ hwa ih => exact ih.plus hwa
  | copy n _ ih => exact ih.copy n

/-- A made table has **no dead ends**, whatever was lost. An edge that gives way to
another is missing from the table, and with it what it would have led to; what is left
has a way to the end. By induction on how the table is made. -/
theorem trim (h : Made r a cs) : a.Trim := by
  induction h with
  | one => exact trim_blank.optional wellFormed_blank
  | token x => exact trim_single x
  | seq n ha hb hwa hwb iha ihb =>
      exact .append ha.wellFormed hb.wellFormed hwa hwb iha ihb hb.opens
  | alt n ha hb hwa _ iha ihb =>
      exact .union (hb.wellFormed.apart n _) (disjoint_apart _ hwa) ha.wellFormed iha
        (ihb.apart n _)
  | optional ha ih => exact ih.optional ha.wellFormed
  | kleene n ha hwa ih =>
      rw [kleene_eq]
      exact (ih.plus ha.wellFormed hwa).optional (ha.wellFormed.plus hwa)
  | plus n ha hwa ih => exact ih.plus ha.wellFormed hwa
  | copy n _ ih => exact ih.copy n

/-- Without shadowed edges a made table reads **exactly what some word of its own begins
with**. From left to right no dead end stops the word, from right to left a run follows
the path, as no edge on it is shadowed. -/
theorem exists_run_iff (h : Made r a cs) (hcoherent : a.Coherent) :
    (∃ s, a.run .start u = some s) ↔ ∃ w, u ++ w ∈ a.spelled := by
  constructor
  · rintro ⟨s, hs⟩
    obtain ⟨w, hw⟩ := h.trim.exists_path_of_run h.opens hs
    exact ⟨w, exists_path_of_run hs hw⟩
  · rintro ⟨w, hw⟩
    obtain ⟨t, ht, -⟩ := hcoherent.reads hw
    rw [run_append] at ht
    obtain ⟨s, hs, -⟩ := Option.bind_eq_some_iff.mp ht
    exact ⟨s, hs⟩

end Made

end TreeGrammar
