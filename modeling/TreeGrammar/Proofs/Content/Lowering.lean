/-
Which patterns can be lowered.

Lowering counts the depth at which it stands upwards and compares it with the bound
before it looks at the construct. What it lets through is said here without a run: the
**depth** of a pattern is how deep its constructs are nested, and a pattern in normal
form can be lowered exactly if no interleave stands in it and it is no deeper than the
bound, or if it is an interleave itself, of blocks that are few enough and each less
deep by one (`Content.exists_ofPattern_iff`).
-/
import TreeGrammar.Proofs.Compile.Yields
import TreeGrammar.Proofs.Pattern.Expansion
import TreeGrammar.Proofs.Pattern.NormalForm

set_option autoImplicit false

namespace TreeGrammar

/-! ## Depth -/

namespace Pattern

mutual

/-- How **deep** the constructs of a pattern are nested. A leaf and a group without
blocks have no depth; any other pattern is deeper by one than its deepest block. -/
def depth : Pattern → Nat
  | token _ => 0
  | ref _ => 0
  | sequence blocks => depthAround blocks
  | choice blocks => depthAround blocks
  | interleave blocks => depthAround blocks
  | optional block => depth block + 1
  | kleene block => depth block + 1
  | plus block => depth block + 1

/-- How deep a group of the blocks is. -/
def depthAround : List Pattern → Nat
  | [] => 0
  | p :: ps => max (depth p + 1) (depthAround ps)

end

variable {n : Nat}

/-- What stands around patterns is deeper than each of them by one. The recursion takes
the maximum, which is a bound on all. -/
theorem depthAround_le_iff {ps : List Pattern} :
    depthAround ps ≤ n ↔ ∀ p ∈ ps, depth p + 1 ≤ n := by
  induction ps with
  | nil => simp [depthAround]
  | cons p ps ih => rw [depthAround, Nat.max_le, ih, List.forall_mem_cons]

/-- A pattern is no deeper than a bound if **its blocks are less deep**. The bound is
thus handed down with one level less, as lowering does it. -/
theorem depth_le_iff (q : Pattern) : q.depth ≤ n ↔ ∀ b ∈ q.blocks, b.depth + 1 ≤ n := by
  cases q <;> simp [depth, blocks, depthAround_le_iff]

end Pattern

/-! ## Terms -/

/-- The token that is read from a name **has that name**. -/
theorem Token.name_ofName (name : String) : (Token.ofName name).name = name := by
  unfold Token.ofName
  split
  · next htext => exact htext.symm
  · rfl

namespace Term

variable {limits : Limits} {d : Nat} {p : Pattern} {ps : List Pattern} {t : Term} {ts : List Term}

/-- Where patterns are lowered all at once, each of them is lowered. -/
theorem mem_of_lowerAll (h : lowerAll limits d ps = .ok ts) :
    ∀ p ∈ ps, ∃ t, lower limits d p = .ok t := by
  induction ps generalizing ts with
  | nil => exact fun p hp => absurd hp List.not_mem_nil
  | cons p ps ih =>
      rw [lowerAll] at h
      obtain ⟨t, ht, h⟩ := Pattern.bind_eq_ok h
      obtain ⟨rest, hrest, -⟩ := Pattern.bind_eq_ok h
      exact List.forall_mem_cons.mpr ⟨⟨t, ht⟩, ih hrest⟩

/-- What is lowered at a depth is **within the bound** down to its deepest construct. By
induction on the pattern, along the recursion of lowering. -/
theorem le_of_lower (d : Nat) (p : Pattern) (t : Term) (h : lower limits d p = .ok t) :
    d + p.depth ≤ limits.patternDepth := by
  have hblocks : ∀ b ∈ p.blocks, ∃ u, lower limits (d + 1) b = .ok u := by
    intro b hb
    unfold lower at h
    obtain ⟨-, -, h⟩ := Pattern.bind_eq_ok h
    cases p with
    | token name => exact absurd hb List.not_mem_nil
    | ref name => exact absurd hb List.not_mem_nil
    | sequence bs | choice bs =>
        obtain ⟨us, hus, -⟩ := Pattern.bind_eq_ok h
        exact mem_of_lowerAll hus b hb
    | optional c | kleene c | plus c =>
        obtain ⟨u, hu, -⟩ := Pattern.bind_eq_ok h
        rw [List.mem_singleton.mp hb]
        exact ⟨u, hu⟩
    | interleave bs => exact absurd h Pattern.throw_ne_ok
  have hhere : d ≤ limits.patternDepth := by
    unfold lower at h
    obtain ⟨⟨⟩, hcheck, -⟩ := Pattern.bind_eq_ok h
    exact (limits.check_eq_ok_iff .patternDepth d).mp (mapError_eq_ok hcheck)
  -- the check is made at every pattern, so at the deepest one, too
  have hdepth : p.depth ≤ limits.patternDepth - d := by
    rw [Pattern.depth_le_iff]
    intro b hb
    obtain ⟨u, hu⟩ := hblocks b hb
    have hle := le_of_lower (d + 1) b u hu
    omega
  omega
termination_by sizeOf p
decreasing_by exact Pattern.sizeOf_lt_of_mem_blocks hb

/-- Conversely, patterns that can be read are lowered if **each of them is**: the
hypothesis is where the bounds come in. -/
theorem lowerAll_eq_ok (hps : ∀ p ∈ ps, ∀ t, ofPattern? p = some t → lower limits d p = .ok t)
    (h : ofPatterns? ps = some ts) : lowerAll limits d ps = .ok ts := by
  induction ps generalizing ts with
  | nil =>
      rw [ofPatterns?] at h
      rw [lowerAll, ← Option.some.inj h]
      rfl
  | cons p ps ih =>
      obtain ⟨t, rest, rfl, ht, hrest⟩ := ofPatterns?_eq_some_cons h
      rw [lowerAll, hps p List.mem_cons_self t ht,
        ih (fun q hq => hps q (List.mem_cons_of_mem p hq)) hrest]
      rfl

/-- Conversely, a pattern that reads as a term **is lowered to it** within the bound.
Both halves of lowering, what reads as a term and what is not too deep, are independent
of each other. -/
theorem lower_eq_ok (d : Nat) (p : Pattern) (t : Term) (hdepth : d + p.depth ≤ limits.patternDepth)
    (h : ofPattern? p = some t) : lower limits d p = .ok t := by
  have hcheck : limits.check .patternDepth d = .ok () := by
    rw [limits.check_eq_ok_iff]
    exact Nat.le_trans (Nat.le_add_right d p.depth) hdepth
  -- one level down the bound has one level less to give
  have hblocks : ∀ b ∈ p.blocks, ∀ u, ofPattern? b = some u → lower limits (d + 1) b = .ok u := by
    intro b hb u hu
    have hle := p.depth_le_iff.mp (Nat.le_refl _) b hb
    exact lower_eq_ok (d + 1) b u (by omega) hu
  unfold lower
  rw [hcheck]
  cases p with
  | token name | ref name =>
      rw [ofPattern?] at h
      rw [← Option.some.inj h]
      rfl
  | sequence bs | choice bs =>
      rw [ofPattern?] at h
      obtain ⟨us, hus, rfl⟩ := Option.map_eq_some_iff.mp h
      show (lowerAll limits (d + 1) bs >>= _) = _
      rw [lowerAll_eq_ok (fun b (hb : b ∈ bs) => hblocks b hb) hus]
      rfl
  | optional c | kleene c | plus c =>
      rw [ofPattern?] at h
      obtain ⟨u, hu, rfl⟩ := Option.map_eq_some_iff.mp h
      show (lower limits (d + 1) c >>= _) = _
      rw [hblocks c (List.mem_singleton_self c) u hu]
      rfl
  | interleave bs => exact absurd h (by simp [ofPattern?])
termination_by sizeOf p
decreasing_by exact Pattern.sizeOf_lt_of_mem_blocks hb

/-- Patterns can be read as terms exactly if each can. -/
theorem exists_ofPatterns?_iff {ps : List Pattern} :
    (∃ ts, ofPatterns? ps = some ts) ↔ ∀ p ∈ ps, ∃ t, ofPattern? p = some t := by
  induction ps with
  | nil => simp [ofPatterns?]
  | cons p ps ih =>
      rw [List.forall_mem_cons, ← ih]
      constructor
      · rintro ⟨ts, hts⟩
        obtain ⟨t, rest, -, ht, hrest⟩ := ofPatterns?_eq_some_cons hts
        exact ⟨⟨t, ht⟩, rest, hrest⟩
      · rintro ⟨⟨t, ht⟩, rest, hrest⟩
        refine ⟨t :: rest, ?_⟩
        rw [ofPatterns?, ht, hrest]
        rfl

/-- Reading as a term goes on to the blocks, and **stops at an interleave**. This is one
level of the recursion, and the next lemma is all of it. -/
theorem exists_ofPattern?_iff_block (p : Pattern) : (∃ t, ofPattern? p = some t) ↔
    (∀ bs, p ≠ .interleave bs) ∧ ∀ b ∈ p.blocks, ∃ t, ofPattern? b = some t := by
  cases p with
  | token name | ref name | interleave bs | optional c | kleene c | plus c =>
      simp [ofPattern?, Pattern.blocks]
  | sequence bs | choice bs => simp [ofPattern?, Pattern.blocks, exists_ofPatterns?_iff]

/-- What reads as a term is what **no interleave stands in**. By induction on
the pattern. -/
theorem exists_ofPattern?_iff (p : Pattern) :
    (∃ t, ofPattern? p = some t) ↔ ¬ ∃ bs, p.Contains (.interleave bs) := by
  have hblocks :
      ∀ b ∈ p.blocks, ((∃ t, ofPattern? b = some t) ↔ ¬ ∃ bs, b.Contains (.interleave bs)) :=
    fun b hb => exists_ofPattern?_iff b
  rw [exists_ofPattern?_iff_block, forall₂_congr hblocks]
  simp only [Pattern.contains_iff (q := p), exists_or, not_or, not_exists, not_and, ne_eq]
  exact and_congr_right fun _ => ⟨fun h bs b hb => h b hb bs, fun h b hb bs => h bs b hb⟩
termination_by sizeOf p
decreasing_by exact Pattern.sizeOf_lt_of_mem_blocks hb

/-- Patterns and the terms read from them are written alike, one by one. -/
theorem renderAll_of_ofPatterns? (hps : ∀ p ∈ ps, ∀ t, ofPattern? p = some t → t.render = p.render)
    (h : ofPatterns? ps = some ts) : renderAll ts = Pattern.renderAll ps := by
  induction ps generalizing ts with
  | nil =>
      rw [ofPatterns?] at h
      rw [← Option.some.inj h, renderAll, Pattern.renderAll]
  | cons p ps ih =>
      obtain ⟨t, rest, rfl, ht, hrest⟩ := ofPatterns?_eq_some_cons h
      rw [renderAll, Pattern.renderAll, hps p List.mem_cons_self t ht,
        ih (fun q hq => hps q (List.mem_cons_of_mem p hq)) hrest]

/-- A term is **shown as its pattern is**. By induction on the pattern; tokens are
written as their names. -/
theorem render_of_ofPattern? (p : Pattern) (t : Term) (h : ofPattern? p = some t) :
    t.render = p.render := by
  have hblocks : ∀ b ∈ p.blocks, ∀ u, ofPattern? b = some u → u.render = b.render :=
    fun b hb u hu => render_of_ofPattern? b u hu
  cases p with
  | token name =>
      rw [ofPattern?] at h
      rw [← Option.some.inj h, render, Pattern.render, Token.name_ofName]
  | ref name =>
      rw [ofPattern?] at h
      rw [← Option.some.inj h, render, Pattern.render]
  | sequence bs | choice bs =>
      rw [ofPattern?] at h
      obtain ⟨us, hus, rfl⟩ := Option.map_eq_some_iff.mp h
      rw [render, Pattern.render,
        renderAll_of_ofPatterns? (fun b (hb : b ∈ bs) => hblocks b hb) hus]
  | optional c | kleene c | plus c =>
      rw [ofPattern?] at h
      obtain ⟨u, hu, rfl⟩ := Option.map_eq_some_iff.mp h
      rw [render, Pattern.render, hblocks c (List.mem_singleton_self c) u hu]
  | interleave bs => exact absurd h (by simp [ofPattern?])
termination_by sizeOf p
decreasing_by exact Pattern.sizeOf_lt_of_mem_blocks hb

end Term

/-! ## Contents -/

namespace Content

variable {limits : Limits} {p q : Pattern} {c : Content}

/-- The pattern read as a content **as it stands**, an interleave block by block. -/
def read? : Pattern → Option Content
  | .interleave blocks => (Term.ofPatterns? blocks).map interleave
  | other => (Term.ofPattern? other).map term

/-- An interleave is read as the terms of its blocks. -/
theorem read?_interleave (blocks : List Pattern) :
    read? (.interleave blocks) = (Term.ofPatterns? blocks).map interleave := rfl

theorem read?_of_ne (hq : ∀ blocks, q ≠ .interleave blocks) :
    read? q = (Term.ofPattern? q).map term := by
  cases q with
  | interleave blocks => exact absurd rfl (hq blocks)
  | _ => rfl

/-- A content is **shown as its pattern is**. The blocks of an interleave are joined in
writing as the parts of a pattern are. -/
theorem render_of_read? (h : read? q = some c) : c.render = q.render := by
  unfold read? at h
  split at h
  · next blocks =>
    obtain ⟨ts, hts, rfl⟩ := Option.map_eq_some_iff.mp h
    rw [render, Pattern.render, Term.renderAll_of_ofPatterns?
      (fun p _ => Term.render_of_ofPattern? p) hts]
  · obtain ⟨t, ht, rfl⟩ := Option.map_eq_some_iff.mp h
    rw [render, Term.render_of_ofPattern? q t ht]

/-- The pattern is **within the bounds** for a content: as regular content, or as an
interleave of blocks. -/
def Fits (limits : Limits) (q : Pattern) : Prop :=
  ((¬ ∃ inner, q.Contains (.interleave inner)) ∧ q.depth ≤ limits.patternDepth) ∨
    ∃ blocks, q = .interleave blocks ∧ blocks.length ≤ limits.interleaveBlocks ∧
      ∀ b ∈ blocks, 1 + b.depth ≤ limits.patternDepth

/-- An interleave fits if it has not too many blocks and none of them is too deep; each
block is counted as one level. -/
theorem fits_interleave_iff {blocks : List Pattern} : Fits limits (.interleave blocks) ↔
    blocks.length ≤ limits.interleaveBlocks ∧ ∀ b ∈ blocks, 1 + b.depth ≤ limits.patternDepth := by
  constructor
  · rintro (⟨hfree, -⟩ | ⟨_, heq, hfits⟩)
    · exact absurd ⟨blocks, Pattern.contains_refl _⟩ hfree
    · obtain rfl := Pattern.interleave.inj heq
      exact hfits
  · exact fun hfits => .inr ⟨blocks, rfl, hfits⟩

/-- Any other pattern fits if no interleave is hidden in it and it is not too
deep itself. -/
theorem fits_iff_of_ne (hq : ∀ blocks, q ≠ .interleave blocks) :
    Fits limits q ↔ (¬ ∃ inner, q.Contains (.interleave inner)) ∧
      q.depth ≤ limits.patternDepth := by
  refine ⟨?_, .inl⟩
  rintro (hfits | ⟨blocks, heq, -⟩)
  · exact hfits
  · exact absurd heq (hq blocks)

/-- A pattern is lowered to what it **reads as**, and only within the bounds. For an
interleave the bound is checked block by block, each one level down. -/
theorem ofNormal_eq_ok_iff : ofNormal limits q = .ok c ↔ Fits limits q ∧ read? q = some c := by
  unfold ofNormal
  -- the blocks of an interleave stand one level down, any other pattern at the top
  split
  · next blocks =>
    rw [fits_interleave_iff, read?_interleave]
    constructor
    · intro h
      obtain ⟨⟨⟩, hcheck, h⟩ := Pattern.bind_eq_ok h
      obtain ⟨ts, hts, h⟩ := Pattern.bind_eq_ok h
      have hcount :=
        (limits.check_eq_ok_iff .interleaveBlocks blocks.length).mp (mapError_eq_ok hcheck)
      have hreads := Term.ofPatterns?_of_lowerAll hts fun p _ => Term.ofPattern?_of_lower limits 1 p
      refine ⟨⟨hcount, fun b hb => ?_⟩, ?_⟩
      · obtain ⟨t, ht⟩ := Term.mem_of_lowerAll hts b hb
        exact Term.le_of_lower 1 b t ht
      · rw [hreads, ← Except.ok.inj h, Option.map_some]
    · rintro ⟨⟨hcount, hdepth⟩, hreads⟩
      obtain ⟨ts, hts, rfl⟩ := Option.map_eq_some_iff.mp hreads
      rw [(limits.check_eq_ok_iff .interleaveBlocks blocks.length).mpr hcount,
        Term.lowerAll_eq_ok (fun b hb t ht => Term.lower_eq_ok 1 b t (hdepth b hb) ht) hts]
      rfl
  · next hne =>
    rw [fits_iff_of_ne hne, read?_of_ne hne]
    constructor
    · intro h
      obtain ⟨t, ht, h⟩ := Pattern.bind_eq_ok h
      have hreads := Term.ofPattern?_of_lower limits 0 q t ht
      refine ⟨⟨(Term.exists_ofPattern?_iff q).mp ⟨t, hreads⟩, ?_⟩, ?_⟩
      · have hle := Term.le_of_lower 0 q t ht
        omega
      · rw [hreads, ← Except.ok.inj h, Option.map_some]
    · rintro ⟨⟨-, hdepth⟩, hreads⟩
      obtain ⟨t, ht, rfl⟩ := Option.map_eq_some_iff.mp hreads
      rw [Term.lower_eq_ok 0 q t (by omega) ht]
      rfl

/-- Normalizing has left **no interleave in a block** of an interleave, so what is
within the bounds reads as a content. -/
theorem Fits.exists_read? (h : Fits limits q) (hq : q.IsNormal) : ∃ c, read? q = some c := by
  unfold read?
  split
  · next blocks =>
    have hblocks : ∀ b ∈ blocks, ∃ t, Term.ofPattern? b = some t := fun b hb =>
      (Term.exists_ofPattern?_iff b).mpr fun ⟨inner, hinner⟩ => hq.reduced.2 b hb inner hinner
    obtain ⟨ts, hts⟩ := Term.exists_ofPatterns?_iff.mpr hblocks
    exact ⟨interleave ts, by rw [hts, Option.map_some]⟩
  · next hne =>
    obtain ⟨t, ht⟩ := (Term.exists_ofPattern?_iff q).mpr ((fits_iff_of_ne hne).mp h).1
    exact ⟨term t, by rw [ht, Option.map_some]⟩

/-- **When a content is read**, and as what: its normal form has to fit the bounds, and
is read without looking at them again. -/
theorem ofPattern_eq_ok_iff : ofPattern limits p = .ok c ↔
    ∃ q, p.normalize = .ok q ∧ Fits limits q ∧ read? q = some c := by
  rw [ofPattern]
  constructor
  · intro h
    obtain ⟨q, hq, h⟩ := Pattern.bind_eq_ok h
    exact ⟨q, mapError_eq_ok hq, ofNormal_eq_ok_iff.mp h⟩
  · rintro ⟨q, hq, h⟩
    rw [hq]
    exact ofNormal_eq_ok_iff.mpr h

/-- A pattern **has a content exactly if** it has a normal form and that is within
the bounds: no interleave stands in it and it is no deeper than the bound, or it is
an interleave of blocks that are few enough and, one level down, no deeper than the
bound. The content is then the normal form with its names read as tokens, and is
shown like it. -/
theorem exists_ofPattern_iff (limits : Limits) (p : Pattern) :
    ((∃ c, ofPattern limits p = .ok c) ↔ ∃ q, p.normalize = .ok q ∧
      (((¬ ∃ inner, q.Contains (.interleave inner)) ∧ q.depth ≤ limits.patternDepth) ∨
        ∃ blocks, q = .interleave blocks ∧ blocks.length ≤ limits.interleaveBlocks ∧
          ∀ b ∈ blocks, 1 + b.depth ≤ limits.patternDepth)) ∧
    ∀ c q, ofPattern limits p = .ok c → p.normalize = .ok q →
      read? q = some c ∧ c.render = q.render := by
  refine ⟨⟨?_, ?_⟩, fun c q hc hq => ?_⟩
  · rintro ⟨c, hc⟩
    obtain ⟨q, hq, hfits, -⟩ := ofPattern_eq_ok_iff.mp hc
    exact ⟨q, hq, hfits⟩
  · rintro ⟨q, hq, hfits⟩
    obtain ⟨c, hc⟩ := Fits.exists_read? hfits (Pattern.stable_normalize p q hq).isNormal
    exact ⟨c, ofPattern_eq_ok_iff.mpr ⟨q, hq, hfits, hc⟩⟩
  · obtain ⟨q', hq', -, hreads⟩ := ofPattern_eq_ok_iff.mp hc
    rw [hq, Except.ok.injEq] at hq'
    subst hq'
    exact ⟨hreads, render_of_read? hreads⟩

/-- An interleave of a name and perhaps text, under a group that is unwrapped. -/
def noteInGroup : Pattern :=
  .sequence [.interleave [.sequence [.token "note"], .optional (.token "#text")]]

/-- Bounds of the depth and of two blocks. -/
def narrow (depth : Nat) : Limits :=
  { Limits.standard with patternDepth := depth, interleaveBlocks := 2 }

/-- The optional text stands one level down and has a level of its own, so the bound
must be two. -/
theorem exists_ofPattern_iff_noteInGroup :
    (∃ c, ofPattern (narrow 2) noteInGroup = .ok c ∧ c.render = "(note & #text?)") ∧
      ¬ ∃ c, ofPattern (narrow 1) noteInGroup = .ok c := by
  have hnormal :
      noteInGroup.normalize = .ok (.interleave [.token "note", .optional (.token "#text")]) := rfl
  constructor
  · obtain ⟨c, hc⟩ := (exists_ofPattern_iff (narrow 2) noteInGroup).1.mpr
      ⟨_, hnormal, .inr ⟨_, rfl, by decide, by decide⟩⟩
    exact ⟨c, hc, ((exists_ofPattern_iff (narrow 2) noteInGroup).2 c _ hc hnormal).2⟩
  · intro h
    obtain ⟨q, hq, hfits⟩ := (exists_ofPattern_iff (narrow 1) noteInGroup).1.mp h
    rw [hnormal, Except.ok.injEq] at hq
    subst hq
    have hdepth := (fits_interleave_iff.mp hfits).2 (.optional (.token "#text")) (by simp)
    exact absurd hdepth (by decide)

end Content

/-! ## How the others fail -/

/-- The cause is one that is found **by normalizing**. -/
def CompileCause.OfNormalizing : CompileCause → Prop
  | emptyChoice => True
  | emptyInterleave => True
  | optionalOfKleene => True
  | plusOfOptional => True
  | plusOfKleene => True
  | interleaveInInterleave => True
  | _ => False

namespace Pattern

variable {ε α β : Type} {splice : Pattern → Except CompileCause (List Pattern)}
  {ps : List Pattern} {cause : CompileCause}

/-- One check after another fails if the first does, or the second after it. -/
theorem bind_eq_error {x : Except ε α} {f : α → Except ε β} {e : ε} (h : x >>= f = .error e) :
    x = .error e ∨ ∃ a, x = .ok a ∧ f a = .error e := by
  cases x with
  | error e' => exact .inl (congrArg Except.error (Except.error.inj h))
  | ok a => exact .inr ⟨a, rfl, h⟩

/-- The blocks of a group fail for a reason of normalizing if normalizing each of them
does, and splicing does. -/
theorem ofNormalizing_of_normalizeBlocks (h : normalizeBlocks splice ps = .error cause)
    (hps : ∀ p ∈ ps, p.normalize = .error cause → cause.OfNormalizing)
    (hsplice : ∀ p, splice p = .error cause → cause.OfNormalizing) : cause.OfNormalizing := by
  induction ps with
  | nil => cases h
  | cons p ps ih =>
      rw [List.forall_mem_cons] at hps
      rw [normalizeBlocks] at h
      rcases bind_eq_error h with h | ⟨inner, -, h⟩
      · exact hps.1 h
      rcases bind_eq_error h with h | ⟨part, -, h⟩
      · exact hsplice inner h
      rcases bind_eq_error h with h | ⟨flat, -, h⟩
      · exact ih h hps.2
      · cases h

theorem ofNormalizing_of_spliceSequence (p : Pattern) (h : spliceSequence p = .error cause) :
    cause.OfNormalizing := by
  unfold spliceSequence at h
  split at h <;> cases h

theorem ofNormalizing_of_spliceChoice (p : Pattern) (h : spliceChoice p = .error cause) :
    cause.OfNormalizing := by
  unfold spliceChoice at h
  split at h <;> cases h

/-- Splicing into an interleave can fail, when the interleave is below the top, and that
is a reason of normalizing, too. -/
theorem ofNormalizing_of_spliceInterleave (p : Pattern) (h : spliceInterleave p = .error cause) :
    cause.OfNormalizing := by
  unfold spliceInterleave at h
  split at h <;> cases h
  trivial

/-- What normalizing finds fault with, **it has a cause for**. By induction on the
pattern; each rewriting passes the failure of its parts on. -/
theorem ofNormalizing_of_normalize (p : Pattern) (h : p.normalize = .error cause) :
    cause.OfNormalizing := by
  -- a failure comes from a block, or from what is built of the normal blocks
  match p with
  | .token name | .ref name => cases h
  | .sequence blocks =>
      rw [normalize] at h
      rcases bind_eq_error h with h | ⟨flat, -, h⟩
      · exact ofNormalizing_of_normalizeBlocks h (fun p hp => ofNormalizing_of_normalize p)
          ofNormalizing_of_spliceSequence
      · cases h
  | .choice blocks =>
      rw [normalize] at h
      rcases bind_eq_error h with h | ⟨flat, -, h⟩
      · exact ofNormalizing_of_normalizeBlocks h (fun p hp => ofNormalizing_of_normalize p)
          ofNormalizing_of_spliceChoice
      · unfold ofChoice at h
        split at h <;> cases h
        trivial
  | .interleave blocks =>
      rw [normalize] at h
      rcases bind_eq_error h with h | ⟨flat, -, h⟩
      · exact ofNormalizing_of_normalizeBlocks h (fun p hp => ofNormalizing_of_normalize p)
          ofNormalizing_of_spliceInterleave
      · unfold ofInterleave at h
        split at h <;> cases h
        trivial
  | .optional block =>
      rw [normalize] at h
      rcases bind_eq_error h with h | ⟨inner, -, h⟩
      · exact ofNormalizing_of_normalize block h
      · unfold ofOptional at h
        split at h <;> cases h
        trivial
  | .kleene block =>
      rw [normalize] at h
      rcases bind_eq_error h with h | ⟨inner, -, h⟩
      · exact ofNormalizing_of_normalize block h
      · cases h
  | .plus block =>
      rw [normalize] at h
      rcases bind_eq_error h with h | ⟨inner, -, h⟩
      · exact ofNormalizing_of_normalize block h
      · unfold ofPlus at h
        split at h <;> cases h <;> trivial
termination_by p
decreasing_by
  all_goals first
    | (have hsize := List.sizeOf_lt_of_mem hp; simp; omega)
    | simp

end Pattern

/-- A bound that is passed is a **limit**. -/
theorem Limits.eq_limit_of_check {limits : Limits} {q : Quantity} {n : Nat} {e : Failure}
    (h : (limits.check q n).mapError Failure.limit = .error e) : ∃ excess, e = .limit excess := by
  unfold check at h
  split at h <;> cases h
  exact ⟨_, rfl⟩

/-- The failure is one of **lowering**: a bound is passed, or an interleave
stands inside. -/
def Failure.OfLowering (e : Failure) : Prop :=
  (∃ excess, e = .limit excess) ∨ e = .compile { cause := .interleaveInside }

namespace Term

variable {limits : Limits} {d : Nat} {ps : List Pattern} {e : Failure}

/-- Patterns that are lowered all at once fail as the first of them that fails. -/
theorem ofLowering_of_lowerAll (hps : ∀ p ∈ ps, lower limits d p = .error e → e.OfLowering)
    (h : lowerAll limits d ps = .error e) : e.OfLowering := by
  induction ps with
  | nil => cases h
  | cons p ps ih =>
      rw [List.forall_mem_cons] at hps
      rw [lowerAll] at h
      rcases Pattern.bind_eq_error h with h | ⟨t, -, h⟩
      · exact hps.1 h
      rcases Pattern.bind_eq_error h with h | ⟨ts, -, h⟩
      · exact ih hps.2 h
      · cases h

/-- Lowering fails for **one of its own reasons**, whatever the bounds are and however
deep it has come. -/
theorem ofLowering_of_lower (d : Nat) (p : Pattern) (h : lower limits d p = .error e) :
    e.OfLowering := by
  -- the depth is checked first at every pattern, and an interleave is refused after that
  match p with
  | .token name | .ref name =>
      rw [lower] at h
      rcases Pattern.bind_eq_error h with h | ⟨-, -, h⟩
      · exact .inl (Limits.eq_limit_of_check h)
      · cases h
  | .sequence blocks | .choice blocks =>
      rw [lower] at h
      rcases Pattern.bind_eq_error h with h | ⟨-, -, h⟩
      · exact .inl (Limits.eq_limit_of_check h)
      rcases Pattern.bind_eq_error h with h | ⟨ts, -, h⟩
      · exact ofLowering_of_lowerAll (fun p hp => ofLowering_of_lower (d + 1) p) h
      · cases h
  | .optional block | .kleene block | .plus block =>
      rw [lower] at h
      rcases Pattern.bind_eq_error h with h | ⟨-, -, h⟩
      · exact .inl (Limits.eq_limit_of_check h)
      rcases Pattern.bind_eq_error h with h | ⟨t, -, h⟩
      · exact ofLowering_of_lower (d + 1) block h
      · cases h
  | .interleave blocks =>
      rw [lower] at h
      rcases Pattern.bind_eq_error h with h | ⟨-, -, h⟩
      · exact .inl (Limits.eq_limit_of_check h)
      · cases h
        exact .inr rfl
termination_by p
decreasing_by
  all_goals first
    | (have hsize := List.sizeOf_lt_of_mem hp; simp; omega)
    | simp

end Term

/-- A pattern without a content has no normal form, or one that **cannot be lowered**.
Nothing else can go wrong on the way from a pattern to its content. -/
theorem Content.ofPattern_eq_error {limits : Limits} {p : Pattern} {e : Failure}
    (h : ofPattern limits p = .error e) :
    (∃ cause, p.normalize = .error cause ∧ e = .compile { cause }) ∨ (∃ q, p.normalize = .ok q) ∧
    e.OfLowering := by
  rw [ofPattern] at h
  cases hnormal : p.normalize with
  | error cause =>
      rw [hnormal] at h
      exact .inl ⟨cause, rfl, (Except.error.inj h).symm⟩
  | ok q =>
      rw [hnormal] at h
      change ofNormal limits q = .error e at h
      refine .inr ⟨⟨q, rfl⟩, ?_⟩
      unfold ofNormal at h
      split at h
      · rcases Pattern.bind_eq_error h with h | ⟨-, -, h⟩
        · exact .inl (Limits.eq_limit_of_check h)
        rcases Pattern.bind_eq_error h with h | ⟨ts, -, h⟩
        · exact Term.ofLowering_of_lowerAll (fun p _ => Term.ofLowering_of_lower 1 p) h
        · cases h
      · rcases Pattern.bind_eq_error h with h | ⟨t, -, h⟩
        · exact Term.ofLowering_of_lower 0 q h
        · cases h

end TreeGrammar
