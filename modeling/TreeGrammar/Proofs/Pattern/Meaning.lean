/-
The meaning of a pattern.

What a pattern means depends on what its references mean, and on nothing else of the
grammar around it. Given a language for each reference, the meaning is a language put
together construct by construct: a sequence is a product, a choice a sum, a repetition a
star, and an interleave mixes one word of each block. Splicing, unwrapping and
collapsing are laws of that algebra, so the normal form means the same, whatever the
references mean (`meaning_normalize`).
-/
import Mathlib.Computability.Language
import Mathlib.Order.CompletePartialOrder
import TreeGrammar.Proofs.Pattern.Normal
import TreeGrammar.Token

set_option autoImplicit false

open scoped Computability

namespace TreeGrammar

/-! ## Words mixed with words -/

/-- The third word **mixes** the other two: each of them stands in it in
its own order. -/
inductive Mixes : List Token → List Token → List Token → Prop
  | nil : Mixes [] [] []
  | left {x : Token} {u v w : List Token} (h : Mixes u v w) : Mixes (x :: u) v (x :: w)
  | right {x : Token} {u v w : List Token} (h : Mixes u v w) : Mixes u (x :: v) (x :: w)

/-- With the empty word a word mixes to itself only. -/
theorem mixes_nil_iff {u w : List Token} : Mixes u [] w ↔ u = w := by
  constructor
  · intro h
    generalize hv : ([] : List Token) = v at h
    induction h with
    | nil => rfl
    | left _ ih => rw [ih hv]
    | right _ _ => exact absurd hv (by simp)
  · rintro rfl
    induction u with
    | nil => exact .nil
    | cons x u ih => exact .left ih

/-- The words that mix a word of the one language with a word of the other. -/
def mixture (l m : Language Token) : Language Token := {w | ∃ u ∈ l, ∃ v ∈ m, Mixes u v w}

/-- So mixing with the one of the algebra changes no language, which is why an
interleave of one block is that block. -/
theorem mixture_one (l : Language Token) : mixture l 1 = l := by
  ext w
  constructor
  · rintro ⟨u, hu, v, hv, hmix⟩
    obtain rfl := Language.mem_one v |>.mp hv
    exact mixes_nil_iff.mp hmix ▸ hu
  · intro hw
    exact ⟨w, hw, [], Language.nil_mem_one, mixes_nil_iff.mpr rfl⟩

/-! ## Repetitions of repetitions -/

section

variable {K : Type*} [KleeneAlgebra K]

/-- One round is among the words of at least one round. -/
theorem self_le_mul_kstar (l : K) : l ≤ l * l∗ := by
  have h : l * 1 ≤ l * l∗ := mul_le_mul_right one_le_kstar l
  rwa [mul_one] at h

/-- Adding the empty word to what is repeated **adds nothing** to the repetitions. -/
theorem kstar_one_add (l : K) : (1 + l)∗ = l∗ := by
  refine le_antisymm ?_ (kstar_mono le_add_self)
  rw [← kstar_idem l]
  exact kstar_mono (add_le one_le_kstar le_kstar)

/-- Repeating what is repeated at least once is repeating it. With the lemma before this
covers each way in which a repetition can stand directly in another. -/
theorem kstar_mul_kstar_self (l : K) : (l * l∗)∗ = l∗ := by
  refine le_antisymm ?_ (kstar_mono (self_le_mul_kstar l))
  rw [← kstar_idem l]
  refine kstar_mono ?_
  rw [kstar_idem]
  exact mul_kstar_le_kstar

end

namespace Pattern

/-! ## Meaning -/

mutual

/-- The **meaning** of a pattern, a reference meaning what `ρ` says. -/
def meaning (ρ : String → Language Token) : Pattern → Language Token
  | token name => ({[Token.ofName name]} : Set (List Token))
  | sequence blocks => (meanings ρ blocks).prod
  | choice blocks => (meanings ρ blocks).sum
  | interleave blocks => (meanings ρ blocks).foldr mixture 1
  | optional block => 1 + meaning ρ block
  | kleene block => (meaning ρ block)∗
  | plus block => meaning ρ block * (meaning ρ block)∗
  | ref name => ρ name

/-- The meanings of patterns, in order. -/
def meanings (ρ : String → Language Token) : List Pattern → List (Language Token)
  | [] => []
  | p :: ps => meaning ρ p :: meanings ρ ps

end

section

variable (ρ : String → Language Token)

/-- The meanings of patterns, taken one by one. The mutual recursion that defines them
is needed for termination only. -/
theorem meanings_eq_map (ps : List Pattern) : meanings ρ ps = ps.map (meaning ρ) := by
  induction ps with
  | nil => rfl
  | cons p ps ih => rw [meanings, ih, List.map_cons]

/-- A sequence means the product of what its parts mean. -/
theorem meaning_sequence (ps : List Pattern) :
    meaning ρ (.sequence ps) = (ps.map (meaning ρ)).prod := by
  rw [meaning, meanings_eq_map]

/-- A choice means the sum of what its parts mean. -/
theorem meaning_choice (ps : List Pattern) : meaning ρ (.choice ps) = (ps.map (meaning ρ)).sum := by
  rw [meaning, meanings_eq_map]

/-- An interleave means the mixture of what its blocks mean. -/
theorem meaning_interleave (ps : List Pattern) :
    meaning ρ (.interleave ps) = (ps.map (meaning ρ)).foldr mixture 1 := by
  rw [meaning, meanings_eq_map]

/-- The first part of a sequence is the left factor. -/
theorem meaning_sequence_cons (p : Pattern) (ps : List Pattern) :
    meaning ρ (.sequence (p :: ps)) = meaning ρ p * meaning ρ (.sequence ps) := by
  rw [meaning_sequence, meaning_sequence, List.map_cons, List.prod_cons]

/-- The first part of a choice is the left summand. -/
theorem meaning_choice_cons (p : Pattern) (ps : List Pattern) :
    meaning ρ (.choice (p :: ps)) = meaning ρ p + meaning ρ (.choice ps) := by
  rw [meaning_choice, meaning_choice, List.map_cons, List.sum_cons]

/-- The first block of an interleave is mixed with all the others. -/
theorem meaning_interleave_cons (p : Pattern) (ps : List Pattern) :
    meaning ρ (.interleave (p :: ps)) = mixture (meaning ρ p) (meaning ρ (.interleave ps)) := by
  rw [meaning_interleave, meaning_interleave, List.map_cons, List.foldr_cons]

/-! ## Groups and repetitions -/

/-- What stands for a group **means what the group does**, if a group of one block means
what the block does. -/
theorem meaning_eq_of_isGroupOf {group : List Pattern → Pattern} {ps : List Pattern} {q : Pattern}
    (hsingle : meaning ρ (group [q]) = meaning ρ q) (h : IsGroupOf group ps q) :
    meaning ρ q = meaning ρ (group ps) := by
  rcases h with rfl | rfl
  · exact hsingle.symm
  · rfl

/-- What is built for the parts of a sequence, be it a group of them or the one part
itself, means the sequence. -/
theorem meaning_eq_of_isGroupOf_sequence {ps : List Pattern} {q : Pattern}
    (h : IsGroupOf sequence ps q) : meaning ρ q = meaning ρ (.sequence ps) :=
  meaning_eq_of_isGroupOf ρ (by rw [meaning_sequence, List.map_singleton, List.prod_singleton]) h

/-- What is built for the parts of a choice means the choice. -/
theorem meaning_eq_of_isGroupOf_choice {ps : List Pattern} {q : Pattern}
    (h : IsGroupOf choice ps q) : meaning ρ q = meaning ρ (.choice ps) :=
  meaning_eq_of_isGroupOf ρ (by rw [meaning_choice, List.map_singleton, List.sum_singleton]) h

/-- What is built for the blocks of an interleave means the interleave. -/
theorem meaning_eq_of_isGroupOf_interleave {ps : List Pattern} {q : Pattern}
    (h : IsGroupOf interleave ps q) : meaning ρ q = meaning ρ (.interleave ps) :=
  meaning_eq_of_isGroupOf ρ
    (by rw [meaning_interleave, List.map_singleton, List.foldr_cons, List.foldr_nil, mixture_one]) h

/-- A repetition of what is repeated already **means the same**, so it does not matter
which of the two stands there. -/
theorem meaning_eq_of_isRepetitionOf {repetition : Pattern → Pattern} {p q : Pattern}
    (hidem : ∀ b, meaning ρ (repetition (repetition b)) = meaning ρ (repetition b))
    (h : IsRepetitionOf repetition p q) : meaning ρ q = meaning ρ (repetition p) := by
  rcases h with ⟨rfl, b, rfl⟩ | rfl
  · exact (hidem b).symm
  · rfl

/-- An optional pattern made optional again means **the same**. -/
theorem meaning_optional_optional (b : Pattern) :
    meaning ρ (.optional (.optional b)) = meaning ρ (.optional b) := by
  rw [meaning, meaning, ← add_assoc, Language.add_self]

/-- So does at least once, at least once. The other pairs of repetitions are Kleene
stars by the laws above. -/
theorem meaning_plus_plus (b : Pattern) : meaning ρ (.plus (.plus b)) = meaning ρ (.plus b) := by
  rw [meaning, meaning, kstar_mul_kstar_self, mul_assoc, kstar_mul_kstar]

/-- Under a repetition of any number, the repetitions of the block **make no
difference**. The recursion strips one after the other, and each is absorbed by the
star outside. -/
theorem kstar_meaning_stripRepetitions (p : Pattern) :
    (meaning ρ (stripRepetitions p))∗ = (meaning ρ p)∗ := by
  induction p using stripRepetitions.induct with
  | case1 block ih => rw [stripRepetitions, ih, meaning, kstar_idem]
  | case2 block ih => rw [stripRepetitions, ih, meaning, kstar_one_add]
  | case3 block ih => rw [stripRepetitions, ih, meaning, kstar_mul_kstar_self]
  | case4 block hkleene hoptional hplus => rw [stripRepetitions] <;> assumption

/-! ## Normalizing -/

variable {ps flat : List Pattern}

/-- A group of normal forms **means what the group of the blocks does**. A group is put
together by one operation, block by block; all that is asked is that the part a block
contributes is worth as much to the operation as the block itself. -/
theorem meaning_of_contributes {group : List Pattern → Pattern}
    {splice : Pattern → Except CompileCause (List Pattern)}
    {op : Language Token → Language Token → Language Token}
    (hcons : ∀ p ps, meaning ρ (group (p :: ps)) = op (meaning ρ p) (meaning ρ (group ps)))
    (hsplice : ∀ p part, splice p = .ok part →
      ∀ rest, meaning ρ (group (part ++ rest)) = op (meaning ρ p) (meaning ρ (group rest)))
    (h : Contributes splice ps flat)
    (hps : ∀ p ∈ ps, ∀ q, p.normalize = .ok q → meaning ρ q = meaning ρ p) :
    meaning ρ (group flat) = meaning ρ (group ps) := by
  induction h with
  | nil => rfl
  | @cons p inner ps part flat hp hpart _ ih =>
      rw [List.forall_mem_cons] at hps
      calc meaning ρ (group (part ++ flat))
          = op (meaning ρ inner) (meaning ρ (group flat)) := hsplice inner part hpart flat
        _ = op (meaning ρ p) (meaning ρ (group ps)) := by rw [hps.1 inner hp, ih hps.2]
        _ = meaning ρ (group (p :: ps)) := (hcons p ps).symm

/-- The parts that one part of a sequence contributes may stand in its place. They come
from a sequence in it, so only a bracket is lost. -/
theorem meaning_sequence_splice (p : Pattern) (part : List Pattern)
    (h : spliceSequence p = .ok part) (rest : List Pattern) :
    meaning ρ (.sequence (part ++ rest)) = meaning ρ p * meaning ρ (.sequence rest) := by
  rw [meaning_eq_of_isGroupOf_sequence ρ (isGroupOf_of_spliceSequence h), meaning_sequence,
    meaning_sequence, meaning_sequence, List.map_append, List.prod_append]

/-- The parts that one part of a choice contributes may stand in its place. -/
theorem meaning_choice_splice (p : Pattern) (part : List Pattern) (h : spliceChoice p = .ok part)
    (rest : List Pattern) :
    meaning ρ (.choice (part ++ rest)) = meaning ρ p + meaning ρ (.choice rest) := by
  rw [meaning_eq_of_isGroupOf_choice ρ (isGroupOf_of_spliceChoice h), meaning_choice,
    meaning_choice, meaning_choice, List.map_append, List.sum_append]

/-- The blocks of an interleave are not spliced, so it is put together of as many
as before. A block that has an interleave in it is refused, so there is nothing
to splice. -/
theorem meaning_interleave_splice (p : Pattern) (part : List Pattern)
    (h : spliceInterleave p = .ok part) (rest : List Pattern) :
    meaning ρ (.interleave (part ++ rest)) = mixture (meaning ρ p)
      (meaning ρ (.interleave rest)) := by
  rw [(eq_of_spliceInterleave h).1, List.singleton_append, meaning_interleave_cons]

/-- The **normal form means the same** as the pattern. The induction is on the pattern;
each construct is a law of the algebra of languages. -/
theorem meaning_normalize (p q : Pattern) (h : p.normalize = .ok q) :
    meaning ρ q = meaning ρ p := by
  -- splicing is associativity, dropping a repetition is a law of the star
  match p with
  | .token name =>
      rw [normalize] at h
      rw [← Except.ok.inj h]
  | .ref name =>
      rw [normalize] at h
      rw [← Except.ok.inj h]
  | .sequence blocks =>
      rw [normalize] at h
      obtain ⟨flat, hflat, hq⟩ := bind_eq_ok h
      rw [← Except.ok.inj hq, meaning_eq_of_isGroupOf_sequence ρ (isGroupOf_ofSequence flat)]
      exact meaning_of_contributes ρ (meaning_sequence_cons ρ) (meaning_sequence_splice ρ)
        (contributes_normalizeBlocks hflat) fun p hp q hq => meaning_normalize p q hq
  | .choice blocks =>
      rw [normalize] at h
      obtain ⟨flat, hflat, hq⟩ := bind_eq_ok h
      rw [meaning_eq_of_isGroupOf_choice ρ (isGroupOf_of_ofChoice hq)]
      exact meaning_of_contributes ρ (meaning_choice_cons ρ) (meaning_choice_splice ρ)
        (contributes_normalizeBlocks hflat) fun p hp q hq => meaning_normalize p q hq
  | .interleave blocks =>
      rw [normalize] at h
      obtain ⟨flat, hflat, hq⟩ := bind_eq_ok h
      rw [meaning_eq_of_isGroupOf_interleave ρ (isGroupOf_of_ofInterleave hq)]
      exact meaning_of_contributes ρ (meaning_interleave_cons ρ) (meaning_interleave_splice ρ)
        (contributes_normalizeBlocks hflat) fun p hp q hq => meaning_normalize p q hq
  | .optional block =>
      rw [normalize] at h
      obtain ⟨inner, hinner, hq⟩ := bind_eq_ok h
      rw [meaning_eq_of_isRepetitionOf ρ (meaning_optional_optional ρ)
        (isRepetitionOf_of_ofOptional hq), meaning, meaning_normalize block inner hinner, meaning]
  | .kleene block =>
      rw [normalize] at h
      obtain ⟨inner, hinner, hq⟩ := bind_eq_ok h
      rw [← Except.ok.inj hq, ofKleene, meaning, kstar_meaning_stripRepetitions,
        meaning_normalize block inner hinner, meaning]
  | .plus block =>
      rw [normalize] at h
      obtain ⟨inner, hinner, hq⟩ := bind_eq_ok h
      rw [meaning_eq_of_isRepetitionOf ρ (meaning_plus_plus ρ) (isRepetitionOf_of_ofPlus hq),
        meaning, meaning_normalize block inner hinner, meaning]
termination_by p
decreasing_by
  all_goals first
    | (have hsize := List.sizeOf_lt_of_mem hp; simp; omega)
    | simp

end

end Pattern

end TreeGrammar
