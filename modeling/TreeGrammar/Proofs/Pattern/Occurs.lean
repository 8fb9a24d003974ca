/-
The tokens that occur in a pattern, its references written out.

A reference stands for its definition, so the tokens of a pattern are those that stand
in it and those of the definitions it refers to, and so on. They can be seen in the
normal form of a pattern as well (`occurs_iff_of_normalize`), and in its expansion,
where they are all at hand (`Term.Expands.mem_tokens_iff`). No token of an expression is
there for nothing: each has a word that it stands in.
-/
import TreeGrammar.Proofs.Pattern.Expansion
import TreeGrammar.Proofs.Pattern.Leaves

set_option autoImplicit false

open scoped Computability

namespace TreeGrammar

namespace Pattern

/-- The token **occurs in** the pattern, each reference standing for its definition. -/
inductive Occurs (defs : OrderedTable String Pattern) (x : Token) : Pattern → Prop
  | token {name : String} (h : Token.ofName name = x) : Occurs defs x (token name)
  | block {p b : Pattern} (hb : b ∈ p.blocks) (h : Occurs defs x b) : Occurs defs x p
  | ref {name : String} {body : Pattern} (hdef : defs.get? name = some body)
      (h : Occurs defs x body) : Occurs defs x (ref name)

variable {defs : OrderedTable String Pattern} {x : Token} {p q b body : Pattern}
  {ps : List Pattern} {name : String}

/-- A token of the text that a pattern names occurs in it, no other. -/
@[simp] theorem occurs_token : (token name).Occurs defs x ↔ Token.ofName name = x := by
  constructor
  · intro h
    cases h with
    | token h => exact h
    | block hb _ => exact absurd hb List.not_mem_nil
  · exact .token

/-- A token occurs in a reference as it does in **the definition**. A reference that has
no definition has no tokens. -/
theorem occurs_ref (hdef : defs.get? name = some body) :
    (ref name).Occurs defs x ↔ body.Occurs defs x := by
  constructor
  · intro h
    cases h with
    | block hb _ => exact absurd hb List.not_mem_nil
    | ref hdef' h =>
        rw [hdef, Option.some.injEq] at hdef'
        rwa [hdef']
  · exact .ref hdef

/-- A token occurs in what is no leaf if it occurs **in one of the blocks**. All
constructors but the two leaves are of this kind. -/
theorem occurs_iff_block (hp : ¬ p.IsLeaf) : p.Occurs defs x ↔ ∃ b ∈ p.blocks, b.Occurs defs x := by
  constructor
  · intro h
    cases h with
    | token _ => exact absurd (isLeaf_token _) hp
    | block hb h => exact ⟨_, hb, h⟩
    | ref _ _ => exact absurd (isLeaf_ref _) hp
  · rintro ⟨b, hb, h⟩
    exact .block hb h

/-- In a sequence occurs what occurs in a part of it. -/
@[simp] theorem occurs_sequence : (sequence ps).Occurs defs x ↔ ∃ p ∈ ps, p.Occurs defs x :=
  occurs_iff_block id

/-- In a choice occurs what occurs in a part of it. -/
@[simp] theorem occurs_choice : (choice ps).Occurs defs x ↔ ∃ p ∈ ps, p.Occurs defs x :=
  occurs_iff_block id

/-- In an interleave occurs what occurs in a block of it. -/
@[simp] theorem occurs_interleave : (interleave ps).Occurs defs x ↔ ∃ p ∈ ps, p.Occurs defs x :=
  occurs_iff_block id

@[simp] theorem occurs_optional : (optional b).Occurs defs x ↔ b.Occurs defs x := by
  rw [occurs_iff_block id]
  simp [blocks]

@[simp] theorem occurs_kleene : (kleene b).Occurs defs x ↔ b.Occurs defs x := by
  rw [occurs_iff_block id]
  simp [blocks]

@[simp] theorem occurs_plus : (plus b).Occurs defs x ↔ b.Occurs defs x := by
  rw [occurs_iff_block id]
  simp [blocks]

/-- What occurs in a part, at whatever depth, occurs in the whole. -/
theorem Occurs.of_contains (h : b.Occurs defs x) (hb : p.Contains b) : p.Occurs defs x := by
  induction hb using Relation.ReflTransGen.head_induction_on with
  | refl => exact h
  | head hblock _ ih => exact .block hblock ih

/-- A token occurs in a pattern if it occurs **in a leaf** of it. What normalizing does
to leaves is known, so what it does to tokens follows. -/
theorem occurs_iff_leaf : p.Occurs defs x ↔ ∃ leaf, leaf.IsLeaf ∧ p.Contains leaf ∧
    leaf.Occurs defs x := by
  constructor
  · intro h
    induction h with
    | token h => exact ⟨_, isLeaf_token _, contains_refl _, .token h⟩
    | block hb _ ih =>
        obtain ⟨leaf, hleaf, hcontains, h⟩ := ih
        exact ⟨leaf, hleaf, hcontains.of_block hb, h⟩
    | ref hdef h _ => exact ⟨_, isLeaf_ref _, contains_refl _, .ref hdef h⟩
  · rintro ⟨leaf, -, hcontains, h⟩
    exact h.of_contains hcontains

/-- The same tokens occur **in the normal form**. Nothing is lost to a rewriting, and
nothing comes in. -/
theorem occurs_iff_of_normalize (h : p.normalize = .ok q) : q.Occurs defs x ↔ p.Occurs defs x := by
  rw [occurs_iff_leaf, occurs_iff_leaf]
  refine exists_congr fun leaf => and_congr_right fun hleaf => ?_
  rw [hleaf.contains_iff_of_normalize p q h]

end Pattern

/-! ## Expressions -/

namespace Regex

/-- The tokens of an expression, from left to right. -/
def tokens : Regex → List Token
  | one => []
  | token x => [x]
  | seq r s => r.tokens ++ s.tokens
  | alt r s => r.tokens ++ s.tokens
  | optional r => r.tokens
  | kleene r => r.tokens
  | plus r => r.tokens

/-- The language of an expression is **never empty**. An expression has no empty
choice, so any word of each part can be had; without this, a token that occurs might be
in no word. -/
theorem exists_mem_language (r : Regex) : ∃ w, w ∈ r.language := by
  induction r with
  | one | optional r _ | kleene r _ => exact ⟨[], (nil_mem_language_iff _).mpr trivial⟩
  | token x => exact ⟨[x], rfl⟩
  | seq r s ihr ihs =>
      obtain ⟨u, hu⟩ := ihr
      obtain ⟨v, hv⟩ := ihs
      exact ⟨u ++ v, Language.append_mem_mul hu hv⟩
  | alt r s ihr _ =>
      obtain ⟨u, hu⟩ := ihr
      exact ⟨u, .inl hu⟩
  | plus r ih =>
      obtain ⟨u, hu⟩ := ih
      exact ⟨u ++ [], Language.append_mem_mul hu (Language.nil_mem_kstar _)⟩

/-- Every token of an expression stands **in some word** of it. No part of an expression
is without a word, so the part with the token can be reached. -/
theorem exists_word_of_mem_tokens {x : Token} {r : Regex} (hx : x ∈ r.tokens) :
    ∃ w ∈ r.language, x ∈ w := by
  induction r with
  | one => exact absurd hx List.not_mem_nil
  | token y => exact ⟨[y], rfl, hx⟩
  | seq r s ihr ihs =>
      -- the token is in one part, and any word of the other part completes it
      rcases List.mem_append.mp hx with hx | hx
      · obtain ⟨u, hu, hxu⟩ := ihr hx
        obtain ⟨v, hv⟩ := s.exists_mem_language
        exact ⟨u ++ v, Language.append_mem_mul hu hv, List.mem_append_left v hxu⟩
      · obtain ⟨u, hu⟩ := r.exists_mem_language
        obtain ⟨v, hv, hxv⟩ := ihs hx
        exact ⟨u ++ v, Language.append_mem_mul hu hv, List.mem_append_right u hxv⟩
  | alt r s ihr ihs =>
      rcases List.mem_append.mp hx with hx | hx
      · obtain ⟨u, hu, hxu⟩ := ihr hx
        exact ⟨u, .inl hu, hxu⟩
      · obtain ⟨v, hv, hxv⟩ := ihs hx
        exact ⟨v, .inr hv, hxv⟩
  | optional r ih =>
      obtain ⟨u, hu, hxu⟩ := ih hx
      exact ⟨u, .inr hu, hxu⟩
  | kleene r ih =>
      obtain ⟨u, hu, hxu⟩ := ih hx
      exact ⟨u, Set.mem_of_mem_of_subset hu (le_kstar (a := r.language)), hxu⟩
  | plus r ih =>
      obtain ⟨u, hu, hxu⟩ := ih hx
      exact ⟨u ++ [], Language.append_mem_mul hu (Language.nil_mem_kstar _),
        List.mem_append_left [] hxu⟩

end Regex

namespace Term

variable {defs : OrderedTable String Pattern} {x : Token} {t : Term} {r : Regex}
  {ps : List Pattern} {ts : List Term} {rs : List Regex}

/-- An expansion has the tokens that **occur in the pattern**. The induction is on the
expansion, where a reference has become what it stands for. -/
theorem Expands.mem_tokens_iff (h : t.Expands defs r) :
    ∀ {p : Pattern}, ofPattern? p = some t → (x ∈ r.tokens ↔ p.Occurs defs x) := by
  induction h with
  | token y =>
      intro p hp
      obtain ⟨name, rfl, rfl⟩ := ofPattern?_cases hp
      rw [Pattern.occurs_token, Regex.tokens, List.mem_singleton, eq_comm]
  | sequenceNil =>
      intro p hp
      obtain ⟨ps, rfl, hps⟩ := ofPattern?_cases hp
      rw [eq_nil_of_ofPatterns? hps]
      simp [Regex.tokens]
  | sequenceOne _ ih =>
      intro p hp
      obtain ⟨ps, rfl, hps⟩ := ofPattern?_cases hp
      obtain ⟨q, rfl, hq⟩ := eq_singleton_of_ofPatterns? hps
      rw [ih hq]
      simp
  | sequenceSnoc _ _ _ ihts iht =>
      intro p hp
      obtain ⟨ps, rfl, hps⟩ := ofPattern?_cases hp
      obtain ⟨qs, q, rfl, hqs, hq⟩ := ofPatterns?_eq_some_snoc hps
      rw [Regex.tokens, List.mem_append, ihts (ofPattern?_sequence_mk hqs), iht hq]
      simp [or_and_right, exists_or]
  | choiceOne _ ih =>
      intro p hp
      obtain ⟨ps, rfl, hps⟩ := ofPattern?_cases hp
      obtain ⟨q, rfl, hq⟩ := eq_singleton_of_ofPatterns? hps
      rw [ih hq]
      simp
  | choiceSnoc _ _ _ ihts iht =>
      intro p hp
      obtain ⟨ps, rfl, hps⟩ := ofPattern?_cases hp
      obtain ⟨qs, q, rfl, hqs, hq⟩ := ofPatterns?_eq_some_snoc hps
      rw [Regex.tokens, List.mem_append, ihts (ofPattern?_choice_mk hqs), iht hq]
      simp [or_and_right, exists_or]
  | optional _ ih =>
      intro p hp
      obtain ⟨q, rfl, hq⟩ := ofPattern?_cases hp
      rw [Regex.tokens, ih hq, Pattern.occurs_optional]
  | kleene _ ih =>
      intro p hp
      obtain ⟨q, rfl, hq⟩ := ofPattern?_cases hp
      rw [Regex.tokens, ih hq, Pattern.occurs_kleene]
  | plus _ ih =>
      intro p hp
      obtain ⟨q, rfl, hq⟩ := ofPattern?_cases hp
      rw [Regex.tokens, ih hq, Pattern.occurs_plus]
  | @ref name body normal t r hdef hnormal hterm _ ih =>
      -- the definition is expanded in normal form, which has its tokens
      intro p hp
      have heq : p = .ref name := ofPattern?_cases hp
      rw [heq, ih hterm, Pattern.occurs_iff_of_normalize hnormal, Pattern.occurs_ref hdef]

/-- The expansions of terms have the tokens that occur **in one of the patterns**. The
patterns are the blocks of an interleave, or the one pattern of a content. -/
theorem exists_mem_tokens_iff (h : List.Forall₂ (Expands defs) ts rs)
    (hps : ofPatterns? ps = some ts) : (∃ r ∈ rs, x ∈ r.tokens) ↔ ∃ p ∈ ps, p.Occurs defs x := by
  induction h generalizing ps with
  | nil =>
      rw [eq_nil_of_ofPatterns? hps]
      simp
  | @cons t r ts rs ht _ ih =>
      cases ps with
      | nil => cases hps
      | cons p ps =>
          obtain ⟨t', rest, heq, hp, hrest⟩ := ofPatterns?_eq_some_cons hps
          obtain ⟨rfl, rfl⟩ := List.cons.inj heq
          rw [List.exists_mem_cons_iff, List.exists_mem_cons_iff, ht.mem_tokens_iff hp, ih hrest]

end Term

end TreeGrammar
