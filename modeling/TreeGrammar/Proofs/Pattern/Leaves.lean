/-
The leaves of a pattern.

A pattern is built up from tokens and references. Normalizing splices groups, unwraps
them and strips repetitions; that throws away groups without blocks, but it never adds a
token or a reference and never takes one away (`IsLeaf.contains_iff_of_normalize`).
-/
import TreeGrammar.Proofs.Pattern.NormalForm

set_option autoImplicit false

namespace TreeGrammar.Pattern

/-- A pattern is a **leaf** if it is a token or a reference. -/
def IsLeaf : Pattern → Prop
  | token _ => True
  | ref _ => True
  | _ => False

/-- A token is a leaf: it has no blocks to look into. -/
theorem isLeaf_token (name : String) : (token name).IsLeaf := trivial

/-- A reference is a leaf too, since its definition is not a part of the pattern. -/
theorem isLeaf_ref (name : String) : (ref name).IsLeaf := trivial

namespace IsLeaf

variable {leaf p q b : Pattern} {ps flat part : List Pattern}
  {splice : Pattern → Except CompileCause (List Pattern)}

/-- A leaf that stands in what is no leaf stands **in one of its blocks**. The pattern
itself is out of the question, as it has blocks. -/
theorem contains_iff (hleaf : leaf.IsLeaf) (hq : ¬ q.IsLeaf) :
    q.Contains leaf ↔ ∃ b ∈ q.blocks, b.Contains leaf := by
  rw [Pattern.contains_iff, or_iff_right]
  rintro rfl
  exact hq hleaf

/-- A leaf is in a sequence exactly if it is **in one of its parts**: the sequence
itself is no leaf. The next lemmas say the same of the other constructors. -/
theorem contains_sequence (hleaf : leaf.IsLeaf) :
    (sequence ps).Contains leaf ↔ ∃ p ∈ ps, p.Contains leaf :=
  hleaf.contains_iff id

/-- A leaf is in a choice exactly if it is in one of its parts. -/
theorem contains_choice (hleaf : leaf.IsLeaf) :
    (choice ps).Contains leaf ↔ ∃ p ∈ ps, p.Contains leaf :=
  hleaf.contains_iff id

/-- A leaf is in an interleave exactly if it is in one of its blocks. -/
theorem contains_interleave (hleaf : leaf.IsLeaf) :
    (interleave ps).Contains leaf ↔ ∃ p ∈ ps, p.Contains leaf :=
  hleaf.contains_iff id

/-- A repetition of any kind has the leaves of its body, the optional one first. -/
theorem contains_optional (hleaf : leaf.IsLeaf) : (optional b).Contains leaf ↔ b.Contains leaf := by
  rw [hleaf.contains_iff id]
  simp [blocks]

/-- Any number of times has the leaves of its body. -/
theorem contains_kleene (hleaf : leaf.IsLeaf) : (kleene b).Contains leaf ↔ b.Contains leaf := by
  rw [hleaf.contains_iff id]
  simp [blocks]

theorem contains_plus (hleaf : leaf.IsLeaf) : (plus b).Contains leaf ↔ b.Contains leaf := by
  rw [hleaf.contains_iff id]
  simp [blocks]

/-! ## Groups and repetitions -/

/-- What stands for a group of blocks has **the leaves of the blocks**, whether it is
the group or the only one of them. -/
theorem contains_iff_of_isGroupOf {group : List Pattern → Pattern}
    (hgroup : (group ps).Contains leaf ↔ ∃ p ∈ ps, p.Contains leaf) (h : IsGroupOf group ps q) :
    q.Contains leaf ↔ ∃ p ∈ ps, p.Contains leaf := by
  rcases h with rfl | rfl
  · simp
  · exact hgroup

/-- A repetition has the leaves of its block, and no others. Merging repetitions into
one therefore keeps all leaves. -/
theorem contains_iff_of_isRepetitionOf {repetition : Pattern → Pattern}
    (hrepetition : (repetition p).Contains leaf ↔ p.Contains leaf)
    (h : IsRepetitionOf repetition p q) : q.Contains leaf ↔ p.Contains leaf := by
  rcases h with ⟨rfl, -⟩ | rfl
  · exact Iff.rfl
  · exact hrepetition

/-! ## Splicing -/

/-- The blocks of a group have **the leaves that their normal forms do**, if
splicing keeps them. By induction on the blocks, in step with how their normal forms
are put together. -/
theorem contains_of_contributes (h : Contributes splice ps flat)
    (hsplice : ∀ p part, splice p = .ok part → (p.Contains leaf ↔ ∃ q ∈ part, q.Contains leaf))
    (hps : ∀ p ∈ ps, ∀ q, p.normalize = .ok q → (q.Contains leaf ↔ p.Contains leaf)) :
    (∃ q ∈ flat, q.Contains leaf) ↔ ∃ p ∈ ps, p.Contains leaf := by
  induction h with
  | nil => simp
  | @cons p inner ps part flat hp hpart _ ih =>
      rw [List.forall_mem_cons] at hps
      simp only [List.mem_append, List.mem_cons, or_and_right, exists_or, exists_eq_left]
      rw [← hsplice inner part hpart, hps.1 inner hp, ih hps.2]

/-! ## Stripping -/

/-- Stripping takes repetitions away, none of which is a leaf. By induction on how many
repetitions are stripped. -/
theorem contains_stripRepetitions (hleaf : leaf.IsLeaf) :
    (stripRepetitions p).Contains leaf ↔ p.Contains leaf := by
  induction p using stripRepetitions.induct with
  | case1 block ih =>
      rw [stripRepetitions, ih]
      exact hleaf.contains_kleene.symm
  | case2 block ih =>
      rw [stripRepetitions, ih]
      exact hleaf.contains_optional.symm
  | case3 block ih =>
      rw [stripRepetitions, ih]
      exact hleaf.contains_plus.symm
  | case4 block hkleene hoptional hplus => rw [stripRepetitions] <;> assumption

/-! ## Normalizing -/

/-- A normal form has **the leaves of its pattern**. The induction is on the pattern;
what is made of its blocks is a group or a repetition of their normal forms. -/
theorem contains_iff_of_normalize (hleaf : leaf.IsLeaf) (p q : Pattern) (h : p.normalize = .ok q) :
    q.Contains leaf ↔ p.Contains leaf := by
  have hblocks : ∀ b ∈ p.blocks, ∀ q, b.normalize = .ok q → (q.Contains leaf ↔ b.Contains leaf) :=
    fun b hb q => contains_iff_of_normalize hleaf b q
  -- a group keeps the leaves of its blocks, whether or not it is spliced, and so does
  -- a repetition
  match p with
  | .token other | .ref other =>
      rw [normalize] at h
      rw [← Except.ok.inj h]
  | .sequence bs =>
      rw [normalize] at h
      obtain ⟨flat, hflat, hq⟩ := bind_eq_ok h
      rw [← Except.ok.inj hq, contains_iff_of_isGroupOf hleaf.contains_sequence
        (isGroupOf_ofSequence flat), hleaf.contains_sequence]
      exact contains_of_contributes (contributes_normalizeBlocks hflat) (fun _ _ hpart =>
        contains_iff_of_isGroupOf hleaf.contains_sequence (isGroupOf_of_spliceSequence hpart))
          hblocks
  | .choice bs =>
      rw [normalize] at h
      obtain ⟨flat, hflat, hq⟩ := bind_eq_ok h
      rw [contains_iff_of_isGroupOf hleaf.contains_choice (isGroupOf_of_ofChoice hq),
        hleaf.contains_choice]
      exact contains_of_contributes (contributes_normalizeBlocks hflat) (fun _ _ hpart =>
        contains_iff_of_isGroupOf hleaf.contains_choice (isGroupOf_of_spliceChoice hpart)) hblocks
  | .interleave bs =>
      rw [normalize] at h
      obtain ⟨flat, hflat, hq⟩ := bind_eq_ok h
      rw [contains_iff_of_isGroupOf hleaf.contains_interleave (isGroupOf_of_ofInterleave hq),
        hleaf.contains_interleave]
      exact contains_of_contributes (contributes_normalizeBlocks hflat) (fun _ _ hpart =>
        contains_iff_of_isGroupOf hleaf.contains_interleave (isGroupOf_of_spliceInterleave hpart))
          hblocks
  | .optional b =>
      rw [normalize] at h
      obtain ⟨inner, hinner, hq⟩ := bind_eq_ok h
      rw [contains_iff_of_isRepetitionOf hleaf.contains_optional (isRepetitionOf_of_ofOptional hq),
        hleaf.contains_optional, hblocks b List.mem_cons_self inner hinner]
  | .kleene b =>
      rw [normalize] at h
      obtain ⟨inner, hinner, hq⟩ := bind_eq_ok h
      rw [← Except.ok.inj hq, ofKleene, hleaf.contains_kleene, hleaf.contains_kleene,
        hleaf.contains_stripRepetitions, hblocks b List.mem_cons_self inner hinner]
  | .plus b =>
      rw [normalize] at h
      obtain ⟨inner, hinner, hq⟩ := bind_eq_ok h
      rw [contains_iff_of_isRepetitionOf hleaf.contains_plus (isRepetitionOf_of_ofPlus hq),
        hleaf.contains_plus, hblocks b List.mem_cons_self inner hinner]
termination_by sizeOf p
decreasing_by exact sizeOf_lt_of_mem_blocks hb

end IsLeaf

end TreeGrammar.Pattern
