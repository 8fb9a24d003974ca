/-
The language of a pattern.

A pattern describes words: its language is the usual one of a regular expression, a
reference stands for its definition, and an interleave mixes one word of each block.
`Matches` is the least relation that says so, which gives a meaning to definitions that
refer to each other. Construct by construct it comes out as the algebra of languages, so
the language is the meaning of the pattern where each reference means the language of
its definition (`language_eq_meaning`), and normalizing keeps it.
-/
import Mathlib.Computability.Language
import Mathlib.Order.CompletePartialOrder
import TreeGrammar.OrderedTable
import TreeGrammar.Proofs.Pattern.Meaning
import TreeGrammar.Token

set_option autoImplicit false

open scoped Computability

namespace TreeGrammar.Pattern

/-- The pattern **matches** the word, references standing for the definitions
of the table. -/
inductive Matches (defs : OrderedTable String Pattern) : Pattern → List Token → Prop
  | token (name : String) : Matches defs (.token name) [Token.ofName name]
  | sequenceNil : Matches defs (.sequence []) []
  | sequenceCons {p : Pattern} {ps : List Pattern} {u w : List Token} (hp : Matches defs p u)
      (hps : Matches defs (.sequence ps) w) : Matches defs (.sequence (p :: ps)) (u ++ w)
  | choice {p : Pattern} {ps : List Pattern} {w : List Token} (hmem : p ∈ ps)
      (hp : Matches defs p w) : Matches defs (.choice ps) w
  | interleaveNil : Matches defs (.interleave []) []
  | interleaveCons {p : Pattern} {ps : List Pattern} {u v w : List Token} (hp : Matches defs p u)
      (hps : Matches defs (.interleave ps) v) (hmix : Mixes u v w) :
      Matches defs (.interleave (p :: ps)) w
  | optionalNil (p : Pattern) : Matches defs (.optional p) []
  | optional {p : Pattern} {w : List Token} (hp : Matches defs p w) : Matches defs (.optional p) w
  | kleeneNil (p : Pattern) : Matches defs (.kleene p) []
  | kleeneCons {p : Pattern} {u w : List Token} (hp : Matches defs p u)
      (hrest : Matches defs (.kleene p) w) : Matches defs (.kleene p) (u ++ w)
  | plus {p : Pattern} {u w : List Token} (hp : Matches defs p u)
      (hrest : Matches defs (.kleene p) w) : Matches defs (.plus p) (u ++ w)
  | ref {name : String} {body : Pattern} {w : List Token} (hdef : defs.get? name = some body)
      (hbody : Matches defs body w) : Matches defs (.ref name) w

/-- The **language** of a pattern: the words it matches. -/
def language (defs : OrderedTable String Pattern) (p : Pattern) : Language Token :=
  {w | Matches defs p w}

section

variable (defs : OrderedTable String Pattern)

/-! ## Construct by construct -/

theorem language_token (name : String) :
    language defs (.token name) = ({[Token.ofName name]} : Set (List Token)) := by
  ext w
  constructor
  · rintro ⟨_⟩
    rfl
  · rintro rfl
    exact .token name

/-- The empty sequence matches the empty word and nothing else: it is the one of the
algebra of languages. -/
theorem language_sequence_nil : language defs (.sequence []) = 1 := by
  ext w
  rw [Language.mem_one]
  constructor
  · rintro ⟨_⟩
    rfl
  · rintro rfl
    exact .sequenceNil

/-- A sequence matches a word of its first part followed by a word of the rest, which is
**the product** of languages. -/
theorem language_sequence_cons (p : Pattern) (ps : List Pattern) :
    language defs (.sequence (p :: ps)) = language defs p * language defs (.sequence ps) := by
  ext w
  constructor
  · intro h
    cases h with
    | sequenceCons hp hps => exact Language.append_mem_mul hp hps
  · rintro ⟨u, hu, v, hv, rfl⟩
    exact .sequenceCons hu hv

/-- An empty choice matches nothing, and so is the zero of the algebra. -/
theorem language_choice_nil : language defs (.choice []) = 0 := by
  ext w
  constructor
  · intro h
    cases h with
    | choice hmem _ => exact absurd hmem (by simp)
  · intro h
    exact absurd h (Language.notMem_zero w)

/-- A choice matches what one of its parts matches, which is **the sum**. -/
theorem language_choice_cons (p : Pattern) (ps : List Pattern) :
    language defs (.choice (p :: ps)) = language defs p + language defs (.choice ps) := by
  ext w
  rw [Language.mem_add]
  constructor
  · intro h
    cases h with
    | choice hmem hp =>
        rcases List.mem_cons.mp hmem with rfl | hmem
        · exact .inl hp
        · exact .inr (.choice hmem hp)
  · rintro (hp | hps)
    · exact .choice List.mem_cons_self hp
    · cases hps with
      | choice hmem hp => exact .choice (List.mem_cons_of_mem p hmem) hp

/-- An empty interleave matches the empty word, as an empty sequence does. -/
theorem language_interleave_nil : language defs (.interleave []) = 1 := by
  ext w
  rw [Language.mem_one]
  constructor
  · rintro ⟨_⟩
    rfl
  · rintro rfl
    exact .interleaveNil

/-- An interleave mixes a word of its first block with a word of the others. -/
theorem language_interleave_cons (p : Pattern) (ps : List Pattern) :
    language defs (.interleave (p :: ps)) = mixture (language defs p)
      (language defs (.interleave ps)) := by
  ext w
  constructor
  · intro h
    cases h with
    | interleaveCons hp hps hmix => exact ⟨_, hp, _, hps, hmix⟩
  · rintro ⟨u, hu, v, hv, hmix⟩
    exact .interleaveCons hu hv hmix

/-- An optional pattern matches the empty word besides. -/
theorem language_optional (p : Pattern) :
    language defs (.optional p) = 1 + language defs p := by
  ext w
  rw [Language.mem_add, Language.mem_one]
  constructor
  · intro h
    cases h with
    | optionalNil => exact .inl rfl
    | optional hp => exact .inr hp
  · rintro (rfl | hp)
    · exact .optionalNil p
    · exact .optional hp

/-- Repetition is the Kleene star: both are words put together from words of the body,
counted from the left. -/
theorem language_kleene (p : Pattern) : language defs (.kleene p) = (language defs p)∗ := by
  -- the relation speaks of all patterns at once, so the pattern is named by an equation
  have hwords : ∀ q w, Matches defs q w → q = .kleene p →
      ∃ ws : List (List Token), w = ws.flatten ∧ ∀ u ∈ ws, u ∈ language defs p := by
    intro q w h
    induction h with
    | kleeneNil => exact fun _ => ⟨[], rfl, by simp⟩
    | @kleeneCons p' u w hp _ _ ih =>
        intro heq
        obtain rfl := Pattern.kleene.inj heq
        obtain ⟨ws, rfl, hws⟩ := ih rfl
        refine ⟨u :: ws, rfl, fun v hv => ?_⟩
        rcases List.mem_cons.mp hv with rfl | hv
        · exact hp
        · exact hws v hv
    | _ => exact fun heq => absurd heq (by simp)
  ext w
  rw [Language.mem_kstar]
  constructor
  · intro h
    exact hwords _ w h rfl
  · rintro ⟨ws, rfl, hws⟩
    induction ws with
    | nil => exact .kleeneNil p
    | cons u ws ih =>
        rw [List.flatten_cons]
        exact .kleeneCons (hws u List.mem_cons_self)
          (ih fun v hv => hws v (List.mem_cons_of_mem u hv))

/-- At least once is one word of the body followed by any number. -/
theorem language_plus (p : Pattern) :
    language defs (.plus p) = language defs p * (language defs p)∗ := by
  rw [← language_kleene]
  ext w
  constructor
  · intro h
    cases h with
    | plus hp hrest => exact Language.append_mem_mul hp hrest
  · rintro ⟨u, hu, v, hv, rfl⟩
    exact .plus hu hv

/-- A reference matches **what its definition matches**, also where definitions refer to
each other. The relation is the least one, so this is a fixed point of them all. -/
theorem language_ref {name : String} {body : Pattern} (h : defs.get? name = some body) :
    language defs (.ref name) = language defs body := by
  ext w
  constructor
  · intro hw
    cases hw with
    | ref hdef hbody =>
        rw [h, Option.some.injEq] at hdef
        rw [hdef]
        exact hbody
  · exact .ref h

/-- Taken together, a sequence is the product of its parts' languages. By induction on
the parts, from the two equations for sequences. -/
theorem language_sequence (ps : List Pattern) :
    language defs (.sequence ps) = (ps.map (language defs)).prod := by
  induction ps with
  | nil => rw [language_sequence_nil, List.map_nil, List.prod_nil]
  | cons p ps ih => rw [language_sequence_cons, ih, List.map_cons, List.prod_cons]

theorem language_choice (ps : List Pattern) :
    language defs (.choice ps) = (ps.map (language defs)).sum := by
  induction ps with
  | nil => rw [language_choice_nil, List.map_nil, List.sum_nil]
  | cons p ps ih => rw [language_choice_cons, ih, List.map_cons, List.sum_cons]

/-- An interleave is the mixture of its blocks' languages, folded from the right. The
order of blocks does not matter, though the fold has one. -/
theorem language_interleave (ps : List Pattern) :
    language defs (.interleave ps) = (ps.map (language defs)).foldr mixture 1 := by
  induction ps with
  | nil => rw [language_interleave_nil, List.map_nil, List.foldr_nil]
  | cons p ps ih => rw [language_interleave_cons, ih, List.map_cons, List.foldr_cons]

/-- A sequence can be cut anywhere. This is what lets a term be built from the left
while the relation takes it apart at the right. -/
theorem language_sequence_append (ps qs : List Pattern) :
    language defs (.sequence (ps ++ qs))
      = language defs (.sequence ps) * language defs (.sequence qs) := by
  simp only [language_sequence, List.map_append, List.prod_append]

theorem language_choice_append (ps qs : List Pattern) :
    language defs (.choice (ps ++ qs))
      = language defs (.choice ps) + language defs (.choice qs) := by
  simp only [language_choice, List.map_append, List.sum_append]

/-- A sequence of one is that one, as far as words go. -/
theorem language_sequence_singleton (p : Pattern) :
    language defs (.sequence [p]) = language defs p := by
  rw [language_sequence_cons, language_sequence_nil, mul_one]

theorem language_choice_singleton (p : Pattern) :
    language defs (.choice [p]) = language defs p := by
  rw [language_choice_cons, language_choice_nil, add_zero]

/-! ## The meaning where references stand for definitions -/

/-- The language is **the meaning** of the pattern, each reference meaning its own
language. What normalizing keeps can then be stated for any meaning, in particular for
this one. -/
theorem language_eq_meaning (p : Pattern) :
    language defs p = p.meaning fun name => language defs (.ref name) := by
  match p with
  | .token name => rw [language_token, meaning]
  | .ref name => rw [meaning]
  | .sequence blocks =>
      rw [language_sequence, meaning_sequence, List.map_congr_left
        fun p hp => language_eq_meaning p]
  | .choice blocks =>
      rw [language_choice, meaning_choice, List.map_congr_left fun p hp => language_eq_meaning p]
  | .interleave blocks =>
      rw [language_interleave, meaning_interleave, List.map_congr_left
        fun p hp => language_eq_meaning p]
  | .optional block => rw [language_optional, language_eq_meaning block, meaning]
  | .kleene block => rw [language_kleene, language_eq_meaning block, meaning]
  | .plus block => rw [language_plus, language_eq_meaning block, meaning]
termination_by p
decreasing_by
  all_goals first
    | (have hsize := List.sizeOf_lt_of_mem hp; simp; omega)
    | simp

/-- The **normal form has the language** of the pattern. It holds for every table of
definitions, since references are left as they are. -/
theorem language_normalize (p q : Pattern) (h : p.normalize = .ok q) :
    language defs q = language defs p := by
  rw [language_eq_meaning, meaning_normalize _ p q h, ← language_eq_meaning]

end

/-- A pattern and its normal form are **two writings of the same words**: whatever
languages the references mean, and so where they stand for the definitions of a
table as well. -/
theorem same_words_of_normalize {p q : Pattern} (h : p.normalize = .ok q) :
    (∀ ρ : String → Language Token, q.meaning ρ = p.meaning ρ) ∧
      ∀ defs : OrderedTable String Pattern, q.language defs = p.language defs :=
  ⟨fun ρ => meaning_normalize ρ p q h, fun defs => language_normalize defs p q h⟩

/-- A head in a group of its own, mixed with notes that are repeated three
times over. -/
def headAndNotes : Pattern :=
  .interleave
    [.sequence [.sequence [.ref "head"]], .kleene (.optional (.plus (.choice [.token "note"])))]

theorem same_words_of_normalize_headAndNotes :
    headAndNotes.normalize = .ok (.interleave [.ref "head", .kleene (.token "note")]) ∧
      (∀ ρ : String → Language Token,
        (interleave [.ref "head", .kleene (.token "note")]).meaning ρ = headAndNotes.meaning ρ) ∧
      ∀ defs : OrderedTable String Pattern,
        (interleave [.ref "head", .kleene (.token "note")]).language defs =
          headAndNotes.language defs := by
  have hnormal :
      headAndNotes.normalize = .ok (.interleave [.ref "head", .kleene (.token "note")]) := by rfl
  exact ⟨hnormal, same_words_of_normalize hnormal⟩

end TreeGrammar.Pattern
