/-
What a normal form looks like.

`Stable` says of a pattern that no step of normalizing changes it. Here the same is said
without a step: which constructs never stand in one another, at whatever depth. A
pattern is `Reduced` if that holds of its outermost construct, and `IsNormal` if it
holds of all patterns in it. The patterns that are normal are exactly those that
normalizing leaves alone (`normalize_eq_self_iff`), and it leads to one of them in one
pass (`isNormal_of_normalize`).
-/
import Mathlib.Logic.Relation
import TreeGrammar.Proofs.Pattern.Normal

set_option autoImplicit false

namespace TreeGrammar.Pattern

/-! ## Patterns in a pattern -/

/-- The blocks **directly inside** a pattern. -/
def blocks : Pattern → List Pattern
  | sequence bs => bs
  | choice bs => bs
  | interleave bs => bs
  | optional b => [b]
  | kleene b => [b]
  | plus b => [b]
  | token _ => []
  | ref _ => []

/-- The pattern `p` stands **somewhere in** `q`: it is `q`, or one of its blocks, or a
block of these, and so on. -/
def Contains (q p : Pattern) : Prop :=
  Relation.ReflTransGen (fun outer inner => inner ∈ outer.blocks) q p

variable {p q b : Pattern} {bs : List Pattern}

theorem contains_refl (q : Pattern) : q.Contains q := Relation.ReflTransGen.refl

theorem Contains.of_block (hb : b ∈ q.blocks) (h : b.Contains p) : q.Contains p :=
  Relation.ReflTransGen.head hb h

/-- What stands in a pattern is the pattern, or stands in one of its blocks. This is the
step of every induction on what a pattern contains. -/
theorem contains_iff : q.Contains p ↔ q = p ∨ ∃ b ∈ q.blocks, b.Contains p :=
  Relation.ReflTransGen.cases_head_iff

/-- A block is smaller than the pattern, so that an induction on patterns may go to any
of its blocks. -/
theorem sizeOf_lt_of_mem_blocks (h : b ∈ q.blocks) : sizeOf b < sizeOf q := by
  cases q with
  | token name => exact absurd h List.not_mem_nil
  | ref name => exact absurd h List.not_mem_nil
  | sequence bs | choice bs | interleave bs =>
      have hlt := List.sizeOf_lt_of_mem (show b ∈ bs from h)
      simp only [sequence.sizeOf_spec, choice.sizeOf_spec, interleave.sizeOf_spec]
      omega
  | optional c | kleene c | plus c =>
      rw [List.mem_singleton.mp h]
      simp

theorem ne_of_mem_blocks (h : b ∈ q.blocks) : b ≠ q := by
  rintro rfl
  exact Nat.lt_irrefl _ (sizeOf_lt_of_mem_blocks h)

/-- A pattern is **not its own only block**. Its blocks are smaller, so it cannot be
among them. -/
theorem blocks_ne_singleton (q : Pattern) : q.blocks ≠ [q] :=
  fun h => ne_of_mem_blocks (h ▸ List.mem_singleton_self q) rfl

/-- The mutual recursion looks at the patterns one by one. -/
theorem anyContainsInterleave_iff (ps : List Pattern) :
    anyContainsInterleave ps = true ↔ ∃ p ∈ ps, p.containsInterleave = true := by
  induction ps with
  | nil => simp [anyContainsInterleave]
  | cons p ps ih => simp [anyContainsInterleave, ih]

/-- The search for an interleave goes on to the blocks, unless it has found one.
The search is a recursion over constructors; here it is one over blocks, as
everything else is. -/
theorem containsInterleave_iff_block (q : Pattern) : q.containsInterleave = true ↔
    (∃ bs, q = interleave bs) ∨ ∃ b ∈ q.blocks, b.containsInterleave = true := by
  cases q <;> simp [containsInterleave, blocks, anyContainsInterleave_iff]

/-- The search for an interleave **finds one at any depth**. The search is what an
interleave in the wrong place is refused by. -/
theorem containsInterleave_iff (q : Pattern) :
    q.containsInterleave = true ↔ ∃ bs, q.Contains (interleave bs) := by
  rw [containsInterleave_iff_block]
  constructor
  · rintro (⟨bs, rfl⟩ | ⟨b, hb, h⟩)
    · exact ⟨bs, contains_refl _⟩
    · obtain ⟨bs, hbs⟩ := (containsInterleave_iff b).mp h
      exact ⟨bs, hbs.of_block hb⟩
  · rintro ⟨bs, h⟩
    rcases contains_iff.mp h with heq | ⟨b, hb, h⟩
    · exact .inl ⟨bs, heq⟩
    · exact .inr ⟨b, hb, (containsInterleave_iff b).mpr ⟨bs, h⟩⟩
termination_by sizeOf q
decreasing_by all_goals exact sizeOf_lt_of_mem_blocks hb

/-! ## Normal forms -/

/-- The outermost construct of a pattern is **as a normal form has it**. -/
def Reduced : Pattern → Prop
  | sequence bs => bs.length ≠ 1 ∧ ∀ inner, sequence inner ∉ bs
  | choice bs => 2 ≤ bs.length ∧ ∀ inner, choice inner ∉ bs
  | interleave bs => 2 ≤ bs.length ∧ ∀ b ∈ bs, ∀ inner, ¬ b.Contains (interleave inner)
  | optional b => ∀ c, b ≠ optional c ∧ b ≠ kleene c
  | kleene b => ∀ c, b ≠ optional c ∧ b ≠ kleene c ∧ b ≠ plus c
  | plus b => ∀ c, b ≠ optional c ∧ b ≠ kleene c ∧ b ≠ plus c
  | token _ => True
  | ref _ => True

/-- Every pattern that stands somewhere in this one **is reduced**. -/
def IsNormal (q : Pattern) : Prop := ∀ p, q.Contains p → p.Reduced

theorem IsNormal.reduced (h : q.IsNormal) : q.Reduced := h q (contains_refl q)

/-- Its blocks are normal again, since what they contain it contains. -/
theorem IsNormal.block (h : q.IsNormal) (hb : b ∈ q.blocks) : b.IsNormal :=
  fun p hp => h p (hp.of_block hb)

/-! ### What each step leaves alone -/

/-- Splicing leaves a block alone **unless it is a group** of the kind that is spliced:
such a group would have to be its own only block. -/
theorem spliceSequence_eq_iff : spliceSequence p = .ok [p] ↔ ∀ inner, p ≠ sequence inner := by
  constructor
  · rintro h inner rfl
    exact blocks_ne_singleton (sequence inner) (Except.ok.inj h)
  · intro h
    rw [spliceSequence]
    exact h

/-- A pattern contributes itself to a choice **exactly if it is no choice**. -/
theorem spliceChoice_eq_iff : spliceChoice p = .ok [p] ↔ ∀ inner, p ≠ choice inner := by
  constructor
  · rintro h inner rfl
    exact blocks_ne_singleton (choice inner) (Except.ok.inj h)
  · intro h
    rw [spliceChoice]
    exact h

/-- It contributes itself to an interleave exactly if there is no interleave anywhere in
it; below the top that would be refused. -/
theorem spliceInterleave_eq_iff :
    spliceInterleave p = .ok [p] ↔ ∀ inner, ¬ p.Contains (interleave inner) := by
  rw [← not_exists, ← containsInterleave_iff, Bool.not_eq_true]
  constructor
  · exact fun h => (eq_of_spliceInterleave h).2
  · intro h
    rw [spliceInterleave, h]
    rfl

/-- A sequence stays a sequence exactly if it does not have one part. -/
theorem ofSequence_eq_iff : ofSequence bs = sequence bs ↔ bs.length ≠ 1 := by
  match bs with
  | [] => simp [ofSequence]
  | [b] => simpa [ofSequence] using ne_of_mem_blocks (q := sequence [b]) List.mem_cons_self
  | _ :: _ :: _ => simp [ofSequence]

/-- A choice stays a choice exactly if it has at least two parts. -/
theorem ofChoice_eq_iff : ofChoice bs = .ok (choice bs) ↔ 2 ≤ bs.length := by
  match bs with
  | [] => simp [ofChoice]
  | [b] => simpa [ofChoice] using ne_of_mem_blocks (q := choice [b]) List.mem_cons_self
  | _ :: _ :: _ => simp [ofChoice]

/-- An interleave stays one exactly if it has at least two blocks. -/
theorem ofInterleave_eq_iff : ofInterleave bs = .ok (interleave bs) ↔ 2 ≤ bs.length := by
  match bs with
  | [] => simp [ofInterleave]
  | [b] => simpa [ofInterleave] using ne_of_mem_blocks (q := interleave [b]) List.mem_cons_self
  | _ :: _ :: _ => simp [ofInterleave]

/-- A pattern is made optional exactly if it is **not optional in form** yet. -/
theorem ofOptional_eq_iff :
    ofOptional b = .ok (optional b) ↔ ∀ c, b ≠ optional c ∧ b ≠ kleene c := by
  cases b with
  | optional c => simpa [ofOptional] using ne_of_mem_blocks (q := optional c) List.mem_cons_self
  | _ => simp [ofOptional]

/-- It is asked for at least once exactly if it repeats in no way yet. -/
theorem ofPlus_eq_iff :
    ofPlus b = .ok (plus b) ↔ ∀ c, b ≠ optional c ∧ b ≠ kleene c ∧ b ≠ plus c := by
  cases b with
  | plus c => simpa [ofPlus] using ne_of_mem_blocks (q := plus c) List.mem_cons_self
  | _ => simp [ofPlus]

/-- Stripping **leaves no repetition** outside. It goes on until there is none, however
many were nested. -/
theorem stripRepetitions_ne (p c : Pattern) :
    stripRepetitions p ≠ optional c ∧ stripRepetitions p ≠ kleene c ∧
    stripRepetitions p ≠ plus c := by
  induction p using stripRepetitions.induct with
  | case1 block ih | case2 block ih | case3 block ih =>
      rw [stripRepetitions]
      exact ih
  | case4 block hkleene hoptional hplus =>
      have hself : stripRepetitions block = block := by
        rw [stripRepetitions] <;> assumption
      rw [hself]
      exact ⟨hoptional c, hkleene c, hplus c⟩

/-- Nothing is stripped exactly from what repeats in no way. -/
theorem stripRepetitions_eq_iff :
    stripRepetitions b = b ↔ ∀ c, b ≠ optional c ∧ b ≠ kleene c ∧ b ≠ plus c := by
  constructor
  · intro h c
    rw [← h]
    exact stripRepetitions_ne b c
  · intro h
    rw [stripRepetitions]
    · exact fun c => (h c).2.1
    · exact fun c => (h c).1
    · exact fun c => (h c).2.2

/-! ### Normal is what normalizing leaves alone -/

/-- A pattern is stable if its blocks are and its outermost construct **is reduced**. In
this form stability is a property of each construct in the pattern, and nothing but. -/
theorem stable_iff : Stable q ↔ (∀ b ∈ q.blocks, Stable b) ∧ q.Reduced := by
  constructor
  -- both forms say of the blocks that they are stable, and of the constructor that it has
  -- nothing to rewrite; the lemmas on splicing and wrapping translate the second
  · intro h
    cases h with
    | token name => exact ⟨fun b hb => absurd hb List.not_mem_nil, trivial⟩
    | ref name => exact ⟨fun b hb => absurd hb List.not_mem_nil, trivial⟩
    | sequence hblocks hsplice hgroup =>
        exact ⟨hblocks, ofSequence_eq_iff.mp hgroup,
          fun inner hmem => spliceSequence_eq_iff.mp (hsplice _ hmem) inner rfl⟩
    | choice hblocks hsplice hgroup =>
        exact ⟨hblocks, ofChoice_eq_iff.mp hgroup,
          fun inner hmem => spliceChoice_eq_iff.mp (hsplice _ hmem) inner rfl⟩
    | interleave hblocks hsplice hgroup =>
        exact ⟨hblocks, ofInterleave_eq_iff.mp hgroup, fun b hb => spliceInterleave_eq_iff.mp
          (hsplice b hb)⟩
    | optional hblock hwrap =>
        exact ⟨List.forall_mem_singleton.mpr hblock, ofOptional_eq_iff.mp hwrap⟩
    | kleene hblock hstrip =>
        exact ⟨List.forall_mem_singleton.mpr hblock, stripRepetitions_eq_iff.mp hstrip⟩
    | plus hblock hwrap => exact ⟨List.forall_mem_singleton.mpr hblock, ofPlus_eq_iff.mp hwrap⟩
  · rintro ⟨hblocks, hreduced⟩
    cases q with
    | token name => exact .token name
    | ref name => exact .ref name
    | sequence bs =>
        refine .sequence hblocks (fun b hb => spliceSequence_eq_iff.mpr ?_)
          (ofSequence_eq_iff.mpr hreduced.1)
        rintro inner rfl
        exact hreduced.2 inner hb
    | choice bs =>
        refine .choice hblocks (fun b hb => spliceChoice_eq_iff.mpr ?_)
          (ofChoice_eq_iff.mpr hreduced.1)
        rintro inner rfl
        exact hreduced.2 inner hb
    | interleave bs =>
        exact .interleave hblocks (fun b hb => spliceInterleave_eq_iff.mpr (hreduced.2 b hb))
          (ofInterleave_eq_iff.mpr hreduced.1)
    | optional b => exact .optional (hblocks b List.mem_cons_self) (ofOptional_eq_iff.mpr hreduced)
    | kleene b =>
        exact .kleene (hblocks b List.mem_cons_self) (stripRepetitions_eq_iff.mpr hreduced)
    | plus b => exact .plus (hblocks b List.mem_cons_self) (ofPlus_eq_iff.mpr hreduced)

/-- What a stable pattern contains is stable, at any depth. -/
theorem Stable.of_contains (h : Stable q) (hp : q.Contains p) : Stable p := by
  induction hp with
  | refl => exact h
  | tail _ hblock ih => exact (stable_iff.mp ih).1 _ hblock

/-- What normalizing leaves alone is normal: a forbidden nesting anywhere would have
been rewritten there. -/
theorem Stable.isNormal (h : Stable q) : q.IsNormal :=
  fun _ hp => (stable_iff.mp (h.of_contains hp)).2

/-- Conversely **a normal pattern is left alone**, from its blocks up. -/
theorem IsNormal.stable {q : Pattern} (h : q.IsNormal) : Stable q :=
  stable_iff.mpr ⟨fun _ hb => (h.block hb).stable, h.reduced⟩
termination_by sizeOf q
decreasing_by exact sizeOf_lt_of_mem_blocks hb

/-- The patterns that normalizing leaves alone are **those in normal form**. Normal
forms are described by what must not stand in them; this says that the description
is complete. -/
theorem normalize_eq_self_iff (q : Pattern) : q.normalize = .ok q ↔ q.IsNormal :=
  ⟨fun h => (stable_normalize q q h).isNormal, fun h => h.stable.normalize_eq⟩

/-- One pass of normalizing **leads to a normal form**, and a second one changes
nothing. So normalizing can be relied upon to have been done once and for all. -/
theorem isNormal_of_normalize (p q : Pattern) (h : p.normalize = .ok q) :
    q.normalize = .ok q ∧ q.IsNormal := by
  have hnormal : q.IsNormal := (stable_normalize p q h).isNormal
  exact ⟨(normalize_eq_self_iff q).mpr hnormal, hnormal⟩

/-- Unwrapping the sequence bares a choice in a choice, and stripping bares a sequence
of one block. -/
theorem isNormal_of_normalize_unwrapped :
    (choice [sequence [choice [token "a", token "b"]],
      kleene (optional (plus (sequence [ref "c"]))),
        sequence []]).normalize
      = .ok (choice [token "a", token "b", kleene (ref "c"), sequence []]) ∧
    (choice [token "a", token "b", kleene (ref "c"), sequence []]).normalize
      = .ok (choice [token "a", token "b", kleene (ref "c"), sequence []]) ∧
    (choice [token "a", token "b", kleene (ref "c"), sequence []]).IsNormal := by
  have h :
      (choice [sequence [choice [token "a", token "b"]],
        kleene (optional (plus (sequence [ref "c"]))), sequence []]).normalize =
          .ok (choice [token "a", token "b", kleene (ref "c"), sequence []]) := rfl
  exact ⟨h, isNormal_of_normalize _ _ h⟩

end TreeGrammar.Pattern
