/-
Tables made for an expression.

`Made r a cs` says that the operators of `TreeGrammar.Automaton.Compose`, applied as `r`
is built up and with numbers that no earlier part uses, make the table `a` and lose the
edges `cs` on the way. Which numbers are drawn, and which parts are copies of tables
made before, is left open: what is proved here holds whatever a session has been used
for.
-/
import TreeGrammar.Proofs.Automaton.AppendChains
import TreeGrammar.Proofs.Automaton.Merge
import TreeGrammar.Proofs.Automaton.Repeat
import TreeGrammar.Proofs.Pattern.Expansion

set_option autoImplicit false

open scoped Computability

namespace TreeGrammar

open Automaton

/-! ## Tables of one edge -/

namespace Automaton

/-- The blank table keeps the rules, having no edges to break them. -/
theorem wellFormed_blank : blank.WellFormed :=
  ⟨fun _ _ h => absurd h (by simp), fun _ => rfl, fun _ h => absurd h (by simp [epsilon]),
    fun _ => halts_of_epsilon_eq_none rfl⟩

theorem within_blank (n : Nat) : blank.Within n :=
  Within.of_edges fun _ _ _ h => absurd h (by simp)

theorem spelled_blank : blank.spelled = 0 := by
  ext w
  constructor
  · intro h
    cases h with
    | step h _ => exact absurd h (by simp)
  · intro h
    exact absurd h (Language.notMem_zero w)

theorem coherent_blank : blank.Coherent := fun _ _ _ _ _ _ _ _ h => absurd h (by simp)

/-- The table of the empty word is the blank one, made optional. So what is known of
optional tables need not be shown again. -/
theorem emptyWord_eq : emptyWord = blank.optional := rfl

/-- The table of a token has **one edge**, from `start` to `fin`. It is the only edge
that comes out of compiling without an operator. -/
theorem target_single {x : Token} {s t : State} {l : Label} :
    (single x).target s l = some t ↔ s = .start ∧ l = .token x ∧ t = .fin := by
  unfold single
  rw [target_insert]
  by_cases h : State.start = s ∧ Label.token x = l
  · obtain ⟨rfl, rfl⟩ := h
    rw [if_pos ⟨rfl, rfl⟩, Option.some.injEq]
    exact ⟨fun h => ⟨rfl, rfl, h.symm⟩, fun h => h.2.2.symm⟩
  · rw [if_neg h]
    constructor
    · intro hcontra
      exact absurd hcontra (by simp)
    · rintro ⟨rfl, rfl, -⟩
      exact absurd ⟨rfl, rfl⟩ h

theorem epsilon_single (x : Token) (s : State) : (single x).epsilon s = none := by
  rw [Option.eq_none_iff_forall_ne_some]
  intro t h
  exact absurd (target_single.mp h).2.1 (by simp)

/-- The table of a token **keeps the rules**: its one edge leaves the start for the end, and
reads something. -/
theorem wellFormed_single (x : Token) : (single x).WellFormed := by
  refine ⟨fun s l h => ?_, fun l => ?_, fun t h => ?_, fun s => ?_⟩
  · exact absurd (target_single.mp h).2.2 (by simp)
  · rw [Option.eq_none_iff_forall_ne_some]
    intro t h
    exact absurd (target_single.mp h).1 (by simp)
  · rw [epsilon_single] at h
    exact absurd h (by simp)
  · exact halts_of_epsilon_eq_none (epsilon_single x s)

theorem within_single (x : Token) (n : Nat) : (single x).Within n := by
  refine Within.of_edges fun s l t h => ?_
  obtain ⟨rfl, -, rfl⟩ := target_single.mp h
  exact ⟨fun k hk => absurd hk (by simp), fun k hk => absurd hk (by simp)⟩

/-- The table of a token spells **that token and nothing else**. -/
theorem spelled_single (x : Token) : (single x).spelled = ({[x]} : Set (List Token)) := by
  ext w
  constructor
  · intro h
    cases h with
    | step h rest =>
        obtain ⟨-, rfl, rfl⟩ := target_single.mp h
        rw [(wellFormed_single x).eq_nil_of_path_fin rest]
        rfl
  · rintro rfl
    exact Path.token (target_single.mpr ⟨rfl, rfl, rfl⟩) .refl

/-- With one edge there are no two that could differ, so the table of a token is
**coherent**. -/
theorem coherent_single (x : Token) : (single x).Coherent := by
  intro s r r' y t t' _ _ ht ht'
  obtain ⟨-, -, rfl⟩ := target_single.mp ht
  obtain ⟨-, -, rfl⟩ := target_single.mp ht'
  rfl

end Automaton

/-! ## Made tables -/

/-- The table is **made for the expression**, and the collisions record
what was lost. -/
inductive Made : Regex → Automaton → List Collision → Prop
  | one : Made .one emptyWord []
  | token (x : Token) : Made (.token x) (single x) []
  | seq {r s : Regex} {a b : Automaton} {cs ds : List Collision} (n : Nat) (ha : Made r a cs)
      (hb : Made s b ds) (hwa : a.Within n) (hwb : b.Within n) :
      Made (.seq r s) (append n a b).automaton (cs ++ ds ++ (append n a b).collisions)
  | alt {r s : Regex} {a b : Automaton} {cs ds : List Collision} (n : Nat) (ha : Made r a cs)
      (hb : Made s b ds) (hwa : a.Within n) (hwb : b.Within n) :
      Made (.alt r s) (merge n a b).automaton (cs ++ ds ++ (merge n a b).collisions)
  | optional {r : Regex} {a : Automaton} {cs : List Collision} (ha : Made r a cs) :
      Made (.optional r) a.optional cs
  | kleene {r : Regex} {a : Automaton} {cs : List Collision} (n : Nat) (ha : Made r a cs)
      (hwa : a.Within n) : Made (.kleene r) (kleene n a).automaton cs
  | plus {r : Regex} {a : Automaton} {cs : List Collision} (n : Nat) (ha : Made r a cs)
      (hwa : a.Within n) : Made (.plus r) (plus n a).automaton cs
  | copy {r : Regex} {a : Automaton} {cs : List Collision} (n : Nat) (ha : Made r a cs) :
      Made r (copy n a).automaton cs

namespace Made

variable {r : Regex} {a : Automaton} {cs : List Collision}

/-- A table that is made **keeps the rules**. By induction on how it is made, with
one lemma for each operator; losses do not matter, as no rule asks for an edge to
be there. -/
theorem wellFormed (h : Made r a cs) : a.WellFormed := by
  induction h with
  | one => exact wellFormed_blank.optional
  | token x => exact wellFormed_single x
  | seq n _ _ hwa hwb iha ihb => exact iha.append ihb hwa hwb
  | alt n _ _ hwa _ iha ihb => exact iha.merge ihb hwa
  | optional _ ih => exact ih.optional
  | kleene n _ hwa ih => exact (ih.plus hwa).optional
  | plus n _ hwa ih => exact ih.plus hwa
  | copy n _ ih => exact ih.copy n

/-- It may be empty **exactly when the expression may be**, whatever was lost. The
epsilon edge of `start` gives way to no other edge, so whether the content may be empty
is never lost. -/
theorem epsilon_start_iff (h : Made r a cs) :
    (a.epsilon .start).isSome = true ↔ r.nullable := by
  induction h with
  | one =>
      rw [emptyWord_eq, epsilon_start_optional]
      exact ⟨fun _ => trivial, fun _ => rfl⟩
  | token x =>
      rw [epsilon_single]
      exact ⟨fun h => absurd h (by simp), False.elim⟩
  | seq n ha hb hwa hwb iha ihb =>
      rw [epsilon_start_append ha.wellFormed hb.wellFormed hwa hwb, iha, ihb, Regex.nullable]
  | alt n _ hb _ _ iha ihb =>
      rw [epsilon_start_merge hb.wellFormed, iha, ihb, Regex.nullable]
  | optional _ _ =>
      rw [epsilon_start_optional]
      exact ⟨fun _ => trivial, fun _ => rfl⟩
  | kleene n _ _ _ =>
      rw [kleene_eq, epsilon_start_optional]
      exact ⟨fun _ => trivial, fun _ => rfl⟩
  | plus n _ hwa ih => rw [epsilon_start_plus hwa, ih, Regex.nullable]
  | copy n ha ih =>
      rw [← (ha.wellFormed.copy n).nil_mem_spelled, spelled_copy, ha.wellFormed.nil_mem_spelled, ih]

/-- It spells words of the expression **only**, whatever was lost. By induction: each
operator makes a table whose words are made of words of its operands. -/
theorem spelled_le (h : Made r a cs) : a.spelled ≤ r.language := by
  induction h with
  | one =>
      rw [emptyWord_eq, spelled_optional wellFormed_blank, spelled_blank, add_zero, Regex.language]
  | token x => exact (spelled_single x).le
  | seq n ha hb hwa hwb iha ihb =>
      exact (spelled_append_le ha.wellFormed hb.wellFormed hwa hwb).trans (mul_le_mul' iha ihb)
  | alt n ha hb hwa _ iha ihb =>
      exact (spelled_merge_le ha.wellFormed hb.wellFormed hwa).trans (add_le_add iha ihb)
  | optional ha ih =>
      rw [spelled_optional ha.wellFormed]
      exact add_le_add (le_refl 1) ih
  -- any number of times is the empty word, or at least once
  | kleene n ha hwa ih =>
      rw [kleene_eq, spelled_optional (ha.wellFormed.plus hwa), spelled_plus ha.wellFormed hwa,
        Language.one_add_self_mul_kstar_eq_kstar]
      exact kstar_mono ih
  | plus n ha hwa ih =>
      rw [spelled_plus ha.wellFormed hwa]
      exact mul_le_mul' ih (kstar_mono ih)
  | copy n _ ih =>
      rw [spelled_copy]
      exact ih

/-- Where nothing was lost, it spells **every** word of the expression. The other
inclusion needs every edge, so it holds where no edge gave way. -/
theorem spelled_eq (h : Made r a cs) (hcs : cs = []) : a.spelled = r.language := by
  induction h with
  | one =>
      rw [emptyWord_eq, spelled_optional wellFormed_blank, spelled_blank, add_zero, Regex.language]
  | token x => rw [spelled_single, Regex.language]
  | seq n ha hb hwa hwb iha ihb =>
      obtain ⟨hab, hboth⟩ := List.append_eq_nil_iff.mp hcs
      obtain ⟨hca, hcb⟩ := List.append_eq_nil_iff.mp hab
      rw [spelled_append ha.wellFormed hb.wellFormed hwa hwb hboth, iha hca, ihb hcb,
        Regex.language]
  | alt n ha hb hwa _ iha ihb =>
      obtain ⟨hab, hboth⟩ := List.append_eq_nil_iff.mp hcs
      obtain ⟨hca, hcb⟩ := List.append_eq_nil_iff.mp hab
      rw [spelled_merge ha.wellFormed hb.wellFormed hwa hboth, iha hca, ihb hcb, Regex.language]
  | optional ha ih => rw [spelled_optional ha.wellFormed, ih hcs, Regex.language]
  | kleene n ha hwa ih =>
      rw [kleene_eq, spelled_optional (ha.wellFormed.plus hwa), spelled_plus ha.wellFormed hwa,
        Language.one_add_self_mul_kstar_eq_kstar, ih hcs, Regex.language]
  | plus n ha hwa ih => rw [spelled_plus ha.wellFormed hwa, ih hcs, Regex.language]
  | copy n _ ih => rw [spelled_copy, ih hcs]

/-- Where nothing was lost **and nothing is repeated**, no edge is shadowed. A
repetition copies its first edges to where a round ends, and does not compare them with
what the chains that come there offer. -/
theorem coherent (h : Made r a cs) (hcs : cs = []) (hloop : r.LoopFree) : a.Coherent := by
  induction h with
  | one => exact coherent_blank.optional wellFormed_blank
  | token x => exact coherent_single x
  | seq n ha hb hwa hwb iha ihb =>
      obtain ⟨hab, hboth⟩ := List.append_eq_nil_iff.mp hcs
      obtain ⟨hca, hcb⟩ := List.append_eq_nil_iff.mp hab
      exact Coherent.append ha.wellFormed hb.wellFormed hwa hwb (iha hca hloop.1) (ihb hcb hloop.2)
        hboth
  | alt n ha hb hwa _ iha ihb =>
      obtain ⟨hab, -⟩ := List.append_eq_nil_iff.mp hcs
      obtain ⟨hca, hcb⟩ := List.append_eq_nil_iff.mp hab
      exact Coherent.union ha.wellFormed (hb.wellFormed.apart n _) (disjoint_apart _ hwa)
        (iha hca hloop.1) ((ihb hcb hloop.2).apart n _)
  | optional ha ih => exact (ih hcs hloop).optional ha.wellFormed
  | kleene _ _ _ _ => exact absurd hloop id
  | plus _ _ _ _ => exact absurd hloop id
  | copy n _ ih => exact (ih hcs hloop).copy n

end Made

end TreeGrammar
