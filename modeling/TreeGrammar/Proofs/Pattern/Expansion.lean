/-
Terms with every reference expanded.

A term is compiled construct by construct, its groups from the left, and a reference as
its definition would be. A `Regex` is what is left of a term when this has been carried
out: no references, and groups of two. Expanding keeps the language
(`Expands.language_eq`). It is a relation since definitions that refer to themselves
have no expansion; what expands, expands in one way only (`Expands.unique`).
-/
import TreeGrammar.Content.Term
import TreeGrammar.Proofs.Pattern.Language

set_option autoImplicit false

open scoped Computability

namespace TreeGrammar

/-- A regular expression over tokens, **without references**. -/
inductive Regex where
  /-- The empty word. -/
  | one
  /-- The word of one token. -/
  | token (x : Token)
  /-- One after the other. -/
  | seq (r s : Regex)
  /-- One or the other. -/
  | alt (r s : Regex)
  /-- Once or not at all. -/
  | optional (r : Regex)
  /-- Any number of times. -/
  | kleene (r : Regex)
  /-- At least once. -/
  | plus (r : Regex)
deriving DecidableEq, Repr

namespace Regex

/-- The **language** of an expression. -/
def language : Regex → Language Token
  | one => 1
  | token x => ({[x]} : Set (List Token))
  | seq r s => r.language * s.language
  | alt r s => r.language + s.language
  | optional r => 1 + r.language
  | kleene r => r.language∗
  | plus r => r.language * r.language∗

/-- Whether the empty word is in the language. -/
def nullable : Regex → Prop
  | one => True
  | token _ => False
  | seq r s => r.nullable ∧ s.nullable
  | alt r s => r.nullable ∨ s.nullable
  | optional _ => True
  | kleene _ => True
  | plus r => r.nullable

/-- A product has the empty word exactly if both factors have it. -/
theorem nil_mem_mul_iff (l m : Language Token) : [] ∈ l * m ↔ [] ∈ l ∧ [] ∈ m := by
  rw [Language.mem_mul]
  constructor
  · rintro ⟨u, hu, v, hv, heq⟩
    obtain ⟨rfl, rfl⟩ := List.append_eq_nil_iff.mp heq
    exact ⟨hu, hv⟩
  · rintro ⟨hl, hm⟩
    exact ⟨[], hl, [], hm, rfl⟩

/-- The recursion on expressions decides whether **the empty word** is in
the language. -/
theorem nil_mem_language_iff (r : Regex) : [] ∈ r.language ↔ r.nullable := by
  induction r with
  | one => exact ⟨fun _ => trivial, fun _ => Language.nil_mem_one⟩
  | token x => exact ⟨fun h => absurd (Set.mem_singleton_iff.mp h) (by simp), False.elim⟩
  | seq r s ihr ihs => rw [language, nil_mem_mul_iff, ihr, ihs, nullable]
  | alt r s ihr ihs => rw [language, Language.mem_add, ihr, ihs, nullable]
  | optional r _ =>
      rw [language, Language.mem_add]
      exact ⟨fun _ => trivial, fun _ => .inl Language.nil_mem_one⟩
  | kleene r _ => exact ⟨fun _ => trivial, fun _ => Language.nil_mem_kstar r.language⟩
  | plus r ih =>
      rw [language, nil_mem_mul_iff, ih, nullable]
      exact ⟨fun h => h.1, fun h => ⟨h, Language.nil_mem_kstar r.language⟩⟩

/-- Whether nothing in the expression is **repeated**. -/
def LoopFree : Regex → Prop
  | one => True
  | token _ => True
  | seq r s => r.LoopFree ∧ s.LoopFree
  | alt r s => r.LoopFree ∧ s.LoopFree
  | optional r => r.LoopFree
  | kleene _ => False
  | plus _ => False

end Regex

/-! ## Expanding -/

namespace Term

/-- The term **expands** to the expression, references standing for the definitions of
the table. -/
inductive Expands (defs : OrderedTable String Pattern) : Term → Regex → Prop
  | token (x : Token) : Expands defs (.token x) (.token x)
  | sequenceNil : Expands defs (.sequence []) .one
  | sequenceOne {t : Term} {r : Regex} (h : Expands defs t r) : Expands defs (.sequence [t]) r
  | sequenceSnoc {ts : List Term} {t : Term} {r s : Regex} (hne : ts ≠ [])
      (hts : Expands defs (.sequence ts) r) (ht : Expands defs t s) :
      Expands defs (.sequence (ts ++ [t])) (.seq r s)
  | choiceOne {t : Term} {r : Regex} (h : Expands defs t r) : Expands defs (.choice [t]) r
  | choiceSnoc {ts : List Term} {t : Term} {r s : Regex} (hne : ts ≠ [])
      (hts : Expands defs (.choice ts) r) (ht : Expands defs t s) :
      Expands defs (.choice (ts ++ [t])) (.alt r s)
  | optional {t : Term} {r : Regex} (h : Expands defs t r) :
      Expands defs (.optional t) (.optional r)
  | kleene {t : Term} {r : Regex} (h : Expands defs t r) : Expands defs (.kleene t) (.kleene r)
  | plus {t : Term} {r : Regex} (h : Expands defs t r) : Expands defs (.plus t) (.plus r)
  | ref {name : String} {body normal : Pattern} {t : Term} {r : Regex}
      (hdef : defs.get? name = some body) (hnormal : body.normalize = .ok normal)
      (hterm : ofPattern? normal = some t) (h : Expands defs t r) : Expands defs (.ref name) r

/-- Patterns are read as terms one by one, or not at all. -/
theorem ofPatterns?_eq_some_cons {p : Pattern} {ps : List Pattern} {ts : List Term}
    (h : ofPatterns? (p :: ps) = some ts) :
    ∃ t rest, ts = t :: rest ∧ ofPattern? p = some t ∧ ofPatterns? ps = some rest := by
  rw [ofPatterns?] at h
  obtain ⟨t, ht, h⟩ := Option.bind_eq_some_iff.mp h
  obtain ⟨rest, hrest, h⟩ := Option.bind_eq_some_iff.mp h
  exact ⟨t, rest, (Option.some.inj h).symm, ht, hrest⟩

/-- Reading patterns as terms keeps their **order**. A group is compiled from the left,
so its last block is what an induction takes off. -/
theorem ofPatterns?_eq_some_snoc {ps : List Pattern} {ts : List Term} {t : Term}
    (h : ofPatterns? ps = some (ts ++ [t])) :
    ∃ qs p, ps = qs ++ [p] ∧ ofPatterns? qs = some ts ∧ ofPattern? p = some t := by
  induction ps generalizing ts with
  | nil =>
      rw [ofPatterns?] at h
      exact absurd (Option.some.inj h) (by simp)
  | cons p ps ih =>
      obtain ⟨t', rest, heq, ht', hrest⟩ := ofPatterns?_eq_some_cons h
      cases ts with
      | nil =>
          obtain ⟨rfl, rfl⟩ := List.cons.inj heq
          cases ps with
          | nil => exact ⟨[], p, rfl, rfl, ht'⟩
          | cons q qs =>
              obtain ⟨_, _, hcontra, -⟩ := ofPatterns?_eq_some_cons hrest
              exact absurd hcontra (by simp)
      | cons t₀ ts =>
          obtain ⟨rfl, rfl⟩ := List.cons.inj heq
          obtain ⟨qs, q, rfl, hqs, hq⟩ := ih hrest
          refine ⟨p :: qs, q, rfl, ?_, hq⟩
          rw [ofPatterns?, ht', hqs]
          rfl

/-- What a term is, its pattern is. The two types have the same constructors but for the
interleave, which no term has. -/
theorem ofPattern?_cases {p : Pattern} {t : Term} (h : ofPattern? p = some t) :
    match t with
    | .token x => ∃ name, p = .token name ∧ Token.ofName name = x
    | .sequence ts => ∃ ps, p = .sequence ps ∧ ofPatterns? ps = some ts
    | .choice ts => ∃ ps, p = .choice ps ∧ ofPatterns? ps = some ts
    | .optional t => ∃ q, p = .optional q ∧ ofPattern? q = some t
    | .kleene t => ∃ q, p = .kleene q ∧ ofPattern? q = some t
    | .plus t => ∃ q, p = .plus q ∧ ofPattern? q = some t
    | .ref name => p = .ref name := by
  cases p with
  | token name =>
      rw [ofPattern?] at h
      obtain rfl := Option.some.inj h
      exact ⟨name, rfl, rfl⟩
  | ref name =>
      rw [ofPattern?] at h
      obtain rfl := Option.some.inj h
      rfl
  | interleave blocks => simp [ofPattern?] at h
  | _ =>
      rw [ofPattern?] at h
      obtain ⟨part, hpart, rfl⟩ := Option.map_eq_some_iff.mp h
      exact ⟨_, rfl, hpart⟩

variable {defs : OrderedTable String Pattern}

/-- A sequence of patterns that can be read is read as the sequence of the terms. -/
theorem ofPattern?_sequence_mk {ps : List Pattern} {ts : List Term} (h : ofPatterns? ps = some ts) :
    ofPattern? (.sequence ps) = some (.sequence ts) := by
  rw [ofPattern?, h, Option.map_some]

theorem ofPattern?_choice_mk {ps : List Pattern} {ts : List Term} (h : ofPatterns? ps = some ts) :
    ofPattern? (.choice ps) = some (.choice ts) := by
  rw [ofPattern?, h, Option.map_some]

theorem eq_nil_of_ofPatterns? {ps : List Pattern} (h : ofPatterns? ps = some []) : ps = [] := by
  cases ps with
  | nil => rfl
  | cons q qs =>
      obtain ⟨_, _, hcontra, -⟩ := ofPatterns?_eq_some_cons h
      exact absurd hcontra (by simp)

theorem eq_singleton_of_ofPatterns? {ps : List Pattern} {t : Term} (h : ofPatterns? ps = some [t]) :
    ∃ p, ps = [p] ∧ ofPattern? p = some t := by
  rw [← List.nil_append [t]] at h
  obtain ⟨qs, p, rfl, hqs, hp⟩ := ofPatterns?_eq_some_snoc h
  obtain rfl := eq_nil_of_ofPatterns? hqs
  exact ⟨p, rfl, hp⟩

/-- An expansion **has the language** of the pattern. By induction on the expansion; a
reference has the language of its definition, and normalizing keeps it. -/
theorem Expands.language_eq {t : Term} {r : Regex} (h : Expands defs t r) :
    ∀ {p : Pattern}, ofPattern? p = some t → r.language = p.language defs := by
  induction h with
  | token x =>
      intro p hp
      obtain ⟨name, rfl, rfl⟩ := ofPattern?_cases hp
      rw [Pattern.language_token, Regex.language]
  | sequenceNil =>
      intro p hp
      obtain ⟨ps, rfl, hps⟩ := ofPattern?_cases hp
      rw [eq_nil_of_ofPatterns? hps, Pattern.language_sequence_nil, Regex.language]
  | @sequenceOne t r _ ih =>
      intro p hp
      obtain ⟨ps, rfl, hps⟩ := ofPattern?_cases hp
      obtain ⟨q, rfl, hq⟩ := eq_singleton_of_ofPatterns? hps
      rw [Pattern.language_sequence_singleton, ih hq]
  | sequenceSnoc _ _ _ ihts iht =>
      -- the blocks before the last are a sequence themselves, which the induction is about
      intro p hp
      obtain ⟨ps, rfl, hps⟩ := ofPattern?_cases hp
      obtain ⟨qs, q, rfl, hqs, hq⟩ := ofPatterns?_eq_some_snoc hps
      rw [Regex.language, ihts (ofPattern?_sequence_mk hqs), iht hq,
        Pattern.language_sequence_append, Pattern.language_sequence_singleton]
  | @choiceOne t r _ ih =>
      intro p hp
      obtain ⟨ps, rfl, hps⟩ := ofPattern?_cases hp
      obtain ⟨q, rfl, hq⟩ := eq_singleton_of_ofPatterns? hps
      rw [Pattern.language_choice_singleton, ih hq]
  | choiceSnoc _ _ _ ihts iht =>
      intro p hp
      obtain ⟨ps, rfl, hps⟩ := ofPattern?_cases hp
      obtain ⟨qs, q, rfl, hqs, hq⟩ := ofPatterns?_eq_some_snoc hps
      rw [Regex.language, ihts (ofPattern?_choice_mk hqs), iht hq,
        Pattern.language_choice_append, Pattern.language_choice_singleton]
  | optional _ ih =>
      intro p hp
      obtain ⟨q, rfl, hq⟩ := ofPattern?_cases hp
      rw [Pattern.language_optional, Regex.language, ih hq]
  | kleene _ ih =>
      intro p hp
      obtain ⟨q, rfl, hq⟩ := ofPattern?_cases hp
      rw [Pattern.language_kleene, Regex.language, ih hq]
  | plus _ ih =>
      intro p hp
      obtain ⟨q, rfl, hq⟩ := ofPattern?_cases hp
      rw [Pattern.language_plus, Regex.language, ih hq]
  | @ref name body normal t r hdef hnormal hterm _ ih =>
      -- the definition is expanded in normal form, and that has its language
      intro p hp
      have heq : p = .ref name := ofPattern?_cases hp
      rw [heq, ih hterm, Pattern.language_normalize defs _ _ hnormal,
        Pattern.language_ref defs hdef]

/-- A block alone is not some blocks with a last one behind them. So the two
constructors for groups never describe the same group. -/
theorem singleton_ne_append {ts : List Term} (hne : ts ≠ []) (t t' : Term) : [t] ≠ ts ++ [t'] := by
  intro heq
  have hlength := congrArg List.length heq
  have hpos := List.length_pos_iff.mpr hne
  rw [List.length_append, List.length_singleton, List.length_singleton] at hlength
  omega

/-- A term has **at most one** expansion. By induction on the first expansion and cases
on the second. -/
theorem Expands.unique {t : Term} {r r' : Regex} (h : Expands defs t r) (h' : Expands defs t r') :
    r = r' := by
  -- a group expands from its last block, so of two expansions of a group both have one block or
  -- both have more
  induction h generalizing r' with
  | token x =>
      cases h' with
      | token => rfl
  | sequenceNil =>
      generalize ht : Term.sequence [] = t at h'
      cases h' with
      | sequenceNil => rfl
      | _ => simp at ht
  | @sequenceOne t₀ r₀ _ ih =>
      generalize ht : Term.sequence [t₀] = t at h'
      cases h' with
      | sequenceOne h' =>
          obtain rfl := (List.cons.inj (Term.sequence.inj ht)).1
          exact ih h'
      | sequenceSnoc hne _ _ => exact absurd (Term.sequence.inj ht) (singleton_ne_append hne _ _)
      | _ => simp at ht
  | @sequenceSnoc ts t₀ r₀ s₀ hne _ _ ihts iht =>
      generalize ht : Term.sequence (ts ++ [t₀]) = t at h'
      cases h' with
      | sequenceOne _ => exact absurd (Term.sequence.inj ht).symm (singleton_ne_append hne _ _)
      | sequenceSnoc _ hts' ht' =>
          obtain ⟨rfl, hlast⟩ := List.append_inj' (Term.sequence.inj ht) rfl
          obtain rfl := (List.cons.inj hlast).1
          rw [ihts hts', iht ht']
      | _ => simp at ht
  | @choiceOne t₀ r₀ _ ih =>
      generalize ht : Term.choice [t₀] = t at h'
      cases h' with
      | choiceOne h' =>
          obtain rfl := (List.cons.inj (Term.choice.inj ht)).1
          exact ih h'
      | choiceSnoc hne _ _ => exact absurd (Term.choice.inj ht) (singleton_ne_append hne _ _)
      | _ => simp at ht
  | @choiceSnoc ts t₀ r₀ s₀ hne _ _ ihts iht =>
      generalize ht : Term.choice (ts ++ [t₀]) = t at h'
      cases h' with
      | choiceOne _ => exact absurd (Term.choice.inj ht).symm (singleton_ne_append hne _ _)
      | choiceSnoc _ hts' ht' =>
          obtain ⟨rfl, hlast⟩ := List.append_inj' (Term.choice.inj ht) rfl
          obtain rfl := (List.cons.inj hlast).1
          rw [ihts hts', iht ht']
      | _ => simp at ht
  | optional _ ih =>
      cases h' with
      | optional h' => rw [ih h']
  | kleene _ ih =>
      cases h' with
      | kleene h' => rw [ih h']
  | plus _ ih =>
      cases h' with
      | plus h' => rw [ih h']
  | ref hdef hnormal hterm _ ih =>
      cases h' with
      | ref hdef' hnormal' hterm' h' =>
          rw [hdef, Option.some.injEq] at hdef'
          subst hdef'
          rw [hnormal, Except.ok.injEq] at hnormal'
          subst hnormal'
          rw [hterm, Option.some.injEq] at hterm'
          subst hterm'
          exact ih h'

end Term

/-! ## Patterns -/

namespace Pattern

/-- The pattern, in normal form and read as a term, **expands** to the expression. -/
def Expands (defs : OrderedTable String Pattern) (p : Pattern) (r : Regex) : Prop :=
  ∃ normal t, p.normalize = .ok normal ∧ Term.ofPattern? normal = some t ∧ t.Expands defs r

/-- The pattern, **as it stands**, unfolds to the expression. -/
def Unfolds (defs : OrderedTable String Pattern) (p : Pattern) (r : Regex) : Prop :=
  ∃ t, Term.ofPattern? p = some t ∧ t.Expands defs r

variable {defs : OrderedTable String Pattern} {p : Pattern} {r r' : Regex}

/-- Expanding is normalizing and then unfolding references. -/
theorem expands_iff : p.Expands defs r ↔ ∃ normal, p.normalize = .ok normal ∧
    normal.Unfolds defs r := by
  constructor
  · rintro ⟨normal, t, hnormal, hterm, ht⟩
    exact ⟨normal, hnormal, t, hterm, ht⟩
  · rintro ⟨normal, hnormal, t, hterm, ht⟩
    exact ⟨normal, t, hnormal, hterm, ht⟩

/-- An interleave unfolds to nothing. It is compiled to several tables, and there is no
expression for these. -/
theorem not_unfolds_interleave (parts : List Pattern) : ¬ (interleave parts).Unfolds defs r := by
  rintro ⟨t, hterm, -⟩
  exact absurd hterm (by simp [Term.ofPattern?])

/-- A reference unfolds as the **normal form of its definition** does. It is there that
a chain of lone references is followed. -/
theorem unfolds_ref_iff {name : String} {body normal : Pattern} (hdef : defs.get? name = some body)
    (hnormal : body.normalize = .ok normal) :
    (ref name).Unfolds defs r ↔ normal.Unfolds defs r := by
  constructor
  · rintro ⟨t, hterm, ht⟩
    rw [Term.ofPattern?, Option.some.injEq] at hterm
    subst hterm
    cases ht with
    | ref hdef' hnormal' hterm' ht =>
        rw [hdef, Option.some.injEq] at hdef'
        subst hdef'
        rw [hnormal, Except.ok.injEq] at hnormal'
        subst hnormal'
        exact ⟨_, hterm', ht⟩
  · rintro ⟨t, hterm, ht⟩
    exact ⟨.ref name, rfl, .ref hdef hnormal hterm ht⟩

/-- Unfolding keeps the language, since a reference has the language of
its definition. -/
theorem Unfolds.language_eq (h : p.Unfolds defs r) : r.language = p.language defs := by
  obtain ⟨t, hterm, ht⟩ := h
  exact ht.language_eq hterm

theorem Unfolds.unique (h : p.Unfolds defs r) (h' : p.Unfolds defs r') : r = r' := by
  obtain ⟨t, hterm, ht⟩ := h
  obtain ⟨t', hterm', ht'⟩ := h'
  rw [hterm, Option.some.injEq] at hterm'
  subst hterm'
  exact ht.unique ht'

/-- The expression that a pattern expands to has **the language of the pattern**. -/
theorem Expands.language_eq (h : p.Expands defs r) : r.language = p.language defs := by
  obtain ⟨normal, hnormal, hr⟩ := expands_iff.mp h
  rw [hr.language_eq, language_normalize defs p normal hnormal]

/-- And there is one such expression at most, which lets facts about it be stated
for any. -/
theorem Expands.unique (h : p.Expands defs r) (h' : p.Expands defs r') : r = r' := by
  obtain ⟨normal, hnormal, hr⟩ := expands_iff.mp h
  obtain ⟨normal', hnormal', hr'⟩ := expands_iff.mp h'
  rw [hnormal, Except.ok.injEq] at hnormal'
  subst hnormal'
  exact hr.unique hr'

end Pattern

end TreeGrammar
