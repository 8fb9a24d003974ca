/-
The references in a pattern.

A pattern mentions the names of the references that stand somewhere in it. References
are leaves, so normalizing adds none and takes none away (`mentions_iff_of_normalize`).
Nor does lowering: the terms of a content have the names that its pattern mentions
(`mem_namesAll_terms_iff`).
-/
import TreeGrammar.Proofs.Compile.Accounts
import TreeGrammar.Proofs.Content.Lowering
import TreeGrammar.Proofs.Pattern.Leaves

set_option autoImplicit false

namespace TreeGrammar

namespace Pattern

/-- A reference to the name stands **somewhere in** the pattern. -/
def Mentions (p : Pattern) (name : String) : Prop := p.Contains (ref name)

variable {p b : Pattern} {ps : List Pattern} {name other : String}

/-- A pattern mentions a name if it is the reference to it, **or one of its blocks**
mentions it. The lemmas that follow are the cases of this for each constructor. -/
theorem mentions_iff : p.Mentions name ↔ p = ref name ∨ ∃ b ∈ p.blocks, b.Mentions name :=
  contains_iff

/-- A token mentions no name, not even if it is called so. -/
@[simp] theorem not_mentions_token : ¬ (token other).Mentions name := by
  rw [mentions_iff]
  simp [blocks]

/-- A reference mentions the one name that it refers to; what the definition mentions
does not count. -/
@[simp] theorem mentions_ref : (ref other).Mentions name ↔ other = name := by
  rw [mentions_iff]
  simp [blocks]

/-- A sequence mentions what **one of its parts** does; the other groups and the repetitions
go the same way. -/
@[simp] theorem mentions_sequence : (sequence ps).Mentions name ↔ ∃ p ∈ ps, p.Mentions name :=
  (isLeaf_ref name).contains_sequence

@[simp] theorem mentions_choice : (choice ps).Mentions name ↔ ∃ p ∈ ps, p.Mentions name :=
  (isLeaf_ref name).contains_choice

/-- An interleave mentions what its blocks mention. -/
@[simp] theorem mentions_interleave : (interleave ps).Mentions name ↔ ∃ p ∈ ps, p.Mentions name :=
  (isLeaf_ref name).contains_interleave

@[simp] theorem mentions_optional : (optional b).Mentions name ↔ b.Mentions name :=
  (isLeaf_ref name).contains_optional

@[simp] theorem mentions_kleene : (kleene b).Mentions name ↔ b.Mentions name :=
  (isLeaf_ref name).contains_kleene

@[simp] theorem mentions_plus : (plus b).Mentions name ↔ b.Mentions name :=
  (isLeaf_ref name).contains_plus

/-- A normal form mentions **what its pattern does**. Normalizing regroups and drops
brackets, and neither loses nor makes up a leaf. -/
theorem mentions_iff_of_normalize (p q : Pattern) (h : p.normalize = .ok q) :
    q.Mentions name ↔ p.Mentions name :=
  IsLeaf.contains_iff_of_normalize (isLeaf_ref name) p q h

/-- A pattern that normalizes to a lone reference mentions the name: normalizing makes
up no leaves. -/
theorem mentions_of_normalize_ref (h : p.normalize = .ok (ref name)) : p.Mentions name :=
  (mentions_iff_of_normalize p _ h).mp (mentions_ref.mpr rfl)

end Pattern

/-! ## Lowering -/

namespace Term

variable {ps : List Pattern} {ts : List Term} {name : String}

/-- The names of terms are the names of any of them. -/
theorem mem_namesAll_iff : name ∈ namesAll ts ↔ ∃ t ∈ ts, name ∈ t.names := by
  induction ts with
  | nil => simp [namesAll]
  | cons t ts ih => simp [namesAll, ih]

/-- Patterns that are lowered one by one have the names that they mention, **if each of
them has**. The hypothesis is the induction that this is used in. -/
theorem mem_namesAll_iff_of_ofPatterns?
    (hps : ∀ p ∈ ps, ∀ t, ofPattern? p = some t → (name ∈ t.names ↔ p.Mentions name))
    (h : ofPatterns? ps = some ts) : name ∈ namesAll ts ↔ ∃ p ∈ ps, p.Mentions name := by
  induction ps generalizing ts with
  | nil =>
      rw [← Option.some.inj h]
      simp [namesAll]
  | cons p ps ih =>
      obtain ⟨t, rest, rfl, ht, hrest⟩ := ofPatterns?_eq_some_cons h
      rw [List.forall_mem_cons] at hps
      rw [namesAll, List.mem_append, hps.1 t ht, ih hps.2 hrest, List.exists_mem_cons_iff]

/-- A term has the names that its pattern **mentions**. By induction on the pattern,
over groups of them at once. -/
theorem mem_names_iff (p : Pattern) (t : Term) (h : ofPattern? p = some t) :
    name ∈ t.names ↔ p.Mentions name := by
  -- every reference is a leaf, and reading as a term keeps the leaves
  match p with
  | .token other =>
      rw [← Option.some.inj h]
      simp [names]
  | .ref other =>
      rw [← Option.some.inj h]
      simp [names, eq_comm]
  | .sequence ps =>
      obtain ⟨ts, hts, rfl⟩ := Option.map_eq_some_iff.mp h
      rw [names, Pattern.mentions_sequence]
      exact mem_namesAll_iff_of_ofPatterns? (fun p hp t => mem_names_iff p t) hts
  | .choice ps =>
      obtain ⟨ts, hts, rfl⟩ := Option.map_eq_some_iff.mp h
      rw [names, Pattern.mentions_choice]
      exact mem_namesAll_iff_of_ofPatterns? (fun p hp t => mem_names_iff p t) hts
  | .optional q =>
      obtain ⟨t, ht, rfl⟩ := Option.map_eq_some_iff.mp h
      rw [names, Pattern.mentions_optional, mem_names_iff q t ht]
  | .kleene q =>
      obtain ⟨t, ht, rfl⟩ := Option.map_eq_some_iff.mp h
      rw [names, Pattern.mentions_kleene, mem_names_iff q t ht]
  | .plus q =>
      obtain ⟨t, ht, rfl⟩ := Option.map_eq_some_iff.mp h
      rw [names, Pattern.mentions_plus, mem_names_iff q t ht]
  | .interleave ps => cases h
termination_by p
decreasing_by
  all_goals first
    | (have hsize := List.sizeOf_lt_of_mem hp; simp; omega)
    | simp

end Term

namespace Content

variable {limits : Limits} {p q : Pattern} {c : Content} {name : String}

/-- The terms of a content have the names that its pattern **mentions**. So what a
content needs compiled can be read off its pattern. -/
theorem mem_namesAll_terms_iff (h : ofPattern limits p = .ok c) :
    name ∈ Term.namesAll c.terms ↔ p.Mentions name := by
  obtain ⟨q, hq, -, hreads⟩ := ofPattern_eq_ok_iff.mp h
  rw [← Pattern.mentions_iff_of_normalize p q hq]
  unfold read? at hreads
  split at hreads
  · obtain ⟨ts, hts, rfl⟩ := Option.map_eq_some_iff.mp hreads
    rw [terms, Pattern.mentions_interleave]
    exact Term.mem_namesAll_iff_of_ofPatterns? (fun p _ => Term.mem_names_iff p) hts
  · obtain ⟨t, ht, rfl⟩ := Option.map_eq_some_iff.mp hreads
    rw [terms, Term.namesAll, Term.namesAll, List.append_nil]
    exact Term.mem_names_iff q t ht

end Content

end TreeGrammar
