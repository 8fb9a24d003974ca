/-
Runs for whole patterns.

A pattern is compiled by way of its normal form, and a lone reference by way of what it
ends at. Neither changes what the pattern expands to, so a run that makes one table of a
pattern makes it for the expansion of the pattern (`delivers_pattern`). A run that makes
a table for each block of an interleave leaves a sound session as well
(`sound_pattern`), so that sessions stay sound for as long as all goes well
(`sound_of_reached`).
-/
import TreeGrammar.Proofs.Compile.Run

set_option autoImplicit false

namespace TreeGrammar

open Automaton Compiling

variable {book : Rulebook} {s s' : Session} {p q : Pattern} {t : Term} {a : Automaton}

/-! ## Whole contents -/

/-- What a pattern in normal form stands for as a whole content **unfolds to the same**
as the pattern. By induction on how many lone references can still be followed. -/
theorem wholeContent_spec (book : Rulebook) (followed : List String) (p : Pattern)
    (hp : p.Stable) (h : (wholeContent book followed p).Yields s q s') :
    s' = s ∧ q.Stable ∧ ∀ r, q.Unfolds book.definitions r ↔ p.Unfolds book.definitions r := by
  induction hn : unseen book.definitions.keys followed using Nat.strong_induction_on
    generalizing followed p with
  | _ n ih =>
    rw [wholeContent.eq_def] at h
    split at h
    · next name =>
      split at h
      · exact absurd h not_yields_failHere
      · next hfollowed =>
        split at h
        · exact absurd h not_yields_failHere
        · next body hbody =>
          rw [yields_bind] at h
          obtain ⟨normal, s₁, hnormal, h⟩ := h
          rw [yields_orFailHere] at hnormal
          obtain ⟨hnormal, rfl⟩ := hnormal
          split at h
          · next other =>
            -- one more name has been followed, so fewer are left
            have hless : unseen book.definitions.keys (followed ++ [name]) < n := by
              rw [← hn]
              exact unseen_append_lt hbody hfollowed
            obtain ⟨heq, hq, hunfolds⟩ :=
              ih _ hless (followed ++ [name]) (.ref other) (.ref other) h rfl
            refine ⟨heq, hq, fun r => ?_⟩
            rw [hunfolds r, Pattern.unfolds_ref_iff hbody hnormal]
          · next parts =>
            rw [yields_pure] at h
            obtain ⟨rfl, rfl⟩ := h
            exact ⟨rfl, Pattern.stable_normalize _ _ hnormal,
              fun r => (Pattern.unfolds_ref_iff hbody hnormal).symm⟩
          · rw [yields_pure] at h
            obtain ⟨rfl, rfl⟩ := h
            exact ⟨rfl, hp, fun r => Iff.rfl⟩
    · rw [yields_pure] at h
      obtain ⟨rfl, rfl⟩ := h
      exact ⟨rfl, hp, fun r => Iff.rfl⟩

/-- What is no lone reference **stands for itself**. -/
theorem wholeContent_of_ne {followed : List String} (href : ∀ name, p ≠ .ref name) :
    wholeContent book followed p = pure p := by
  rw [wholeContent.eq_def]
  split
  · next name => exact absurd rfl (href name)
  · rfl

/-- A pattern in normal form whose content is an interleave **is an interleave**. No
other pattern is lowered to blocks, so a single table means a single term. -/
theorem eq_interleave_of_ofPattern {limits : Limits} {ts : List Term} (hp : p.Stable)
    (h : Content.ofPattern limits p = .ok (.interleave ts)) : ∃ parts, p = .interleave parts := by
  rw [Content.ofPattern] at h
  obtain ⟨normal, hnormal, h⟩ := Pattern.bind_eq_ok h
  have heq := mapError_eq_ok hnormal
  rw [hp.normalize_eq, Except.ok.injEq] at heq
  subst heq
  unfold Content.ofNormal at h
  split at h
  · exact ⟨_, rfl⟩
  · obtain ⟨t, -, h⟩ := Pattern.bind_eq_ok h
    exact absurd (Except.ok.inj h) (by simp)

/-! ## Contents -/

/-- A bounded term that compiles delivers what the term does; that it was not too large
adds nothing. What the term delivers includes the table that it makes and the edges that
it loses. -/
theorem delivers_boundedTerm (hs : s.Sound book.definitions)
    (h : (boundedTerm book t).Yields s a s') : ∃ r cs, Delivers book.definitions t s a s' r cs := by
  exact delivers_term (fun name => delivers_resolve book s.inProgress name) t s a s' hs
    (yields_boundedTerm.mp h).1

/-- The tables of a compiled content. -/
def Compiled.automata : Compiled → List Automaton
  | .single a => [a]
  | .interleave blocks => blocks

/-- Blocks are compiled in turn, each from a session that is still sound, and each of
their tables is made for something. -/
theorem sound_blocks {ts : List Term} {as : List Automaton} (hs : s.Sound book.definitions)
    (h : (blocks book ts).Yields s as s') :
    s'.Sound book.definitions ∧ ∀ a ∈ as, ∃ r cs, Made r a cs := by
  induction ts generalizing s as with
  | nil =>
      obtain ⟨rfl, rfl⟩ := yields_blocks_nil.mp h
      exact ⟨hs, fun a ha => absurd ha (by simp)⟩
  | cons t ts ih =>
      obtain ⟨a, s₁, rest, ha, hrest, rfl⟩ := yields_blocks_cons.mp h
      obtain ⟨r, cs, hdelivers⟩ := delivers_boundedTerm hs ha
      obtain ⟨hsound, hmade⟩ := ih hdelivers.sound hrest
      refine ⟨hsound, fun b hb => ?_⟩
      rcases List.mem_cons.mp hb with rfl | hb
      · exact ⟨r, cs, hdelivers.made⟩
      · exact hmade b hb

/-! ## Patterns -/

/-- A run for a pattern is one for its content, **as a whole**. The stages of
compiling come apart here: normalizing, following lone references, lowering, and
compiling the terms. -/
theorem yields_pattern {c : Compiled} (h : (pattern book p).Yields s c s') :
    ∃ normal whole content, p.normalize = .ok normal ∧
      (wholeContent book [] normal).Yields s whole s ∧
      Content.ofPattern book.limits whole = .ok content ∧
      (Compiling.content book content).Yields s c s' := by
  rw [pattern, yields_bind] at h
  obtain ⟨normal, s₁, hnormal, h⟩ := h
  rw [yields_orFailHere] at hnormal
  obtain ⟨hnormal, rfl⟩ := hnormal
  rw [yields_bind] at h
  obtain ⟨whole, s₂, hwhole, h⟩ := h
  obtain ⟨rfl, -⟩ := wholeContent_spec book [] normal (Pattern.stable_normalize _ _ hnormal) hwhole
  rw [yields_bind] at h
  obtain ⟨content, s₃, hcontent, h⟩ := h
  rw [yields_ofExcept] at hcontent
  obtain ⟨hcontent, rfl⟩ := hcontent
  exact ⟨normal, whole, content, hnormal, hwhole, hcontent, h⟩

/-- Conversely, a pattern that is more than a lone reference is compiled **as its term
is**. It is used the other way round, to show of a pattern that it compiles. -/
theorem yields_pattern_of_term {normal : Pattern} (hnormal : p.normalize = .ok normal)
    (href : ∀ name, normal ≠ .ref name)
    (hcontent : Content.ofPattern book.limits normal = .ok (.term t))
    (h : (boundedTerm book t).Yields s a s') : (pattern book p).Yields s (.single a) s' := by
  rw [pattern, yields_bind]
  refine ⟨normal, s, yields_orFailHere.mpr ⟨hnormal, rfl⟩, ?_⟩
  rw [wholeContent_of_ne href, pure_bind, yields_bind]
  refine ⟨.term t, s, yields_ofExcept.mpr ⟨hcontent, rfl⟩, ?_⟩
  exact yields_content_term.mpr ⟨a, h, rfl⟩

/-- A run for a pattern that makes one table **makes it for the expansion** of the
pattern. It joins what normalizing keeps, what lone references stand for, and what a
term delivers. -/
theorem delivers_pattern (hs : s.Sound book.definitions)
    (h : (pattern book p).Yields s (.single a) s') :
    ∃ r cs, p.Expands book.definitions r ∧ Made r a cs ∧ s'.Sound book.definitions ∧
      s.Loses s' cs := by
  obtain ⟨normal, whole, content, hnormal, hwhole, hcontent, h⟩ := yields_pattern h
  obtain ⟨-, hstable, hunfolds⟩ :=
    wholeContent_spec book [] normal (Pattern.stable_normalize _ _ hnormal) hwhole
  cases content with
  | term t =>
      obtain ⟨b, hb, hab⟩ := yields_content_term.mp h
      obtain rfl := Compiled.single.inj hab
      obtain ⟨r, cs, hdelivers⟩ := delivers_boundedTerm hs hb
      -- the second normalizing finds nothing to do
      obtain ⟨whole', hwhole', hterm⟩ := Content.ofPattern_eq_term hcontent
      rw [hstable.normalize_eq, Except.ok.injEq] at hwhole'
      subst hwhole'
      have hnormalUnfolds := (hunfolds r).mp ⟨t, hterm, hdelivers.expands⟩
      exact ⟨r, cs, Pattern.expands_iff.mpr ⟨normal, hnormal, hnormalUnfolds⟩, hdelivers.made,
        hdelivers.sound, hdelivers.loses⟩
  | interleave ts =>
      obtain ⟨_, -, hcontra⟩ := yields_content_interleave.mp h
      exact absurd hcontra (by simp)

/-- A run for a pattern that has an expansion **makes one table**. An interleave has no
expansion, as its words are not those of one expression. -/
theorem exists_single_of_expands {c : Compiled} {r : Regex} (hexp : p.Expands book.definitions r)
    (h : (pattern book p).Yields s c s') : ∃ a, c = .single a := by
  obtain ⟨normal, whole, content, hnormal, hwhole, hcontent, h⟩ := yields_pattern h
  obtain ⟨-, hstable, hunfolds⟩ :=
    wholeContent_spec book [] normal (Pattern.stable_normalize _ _ hnormal) hwhole
  cases content with
  | term t =>
      obtain ⟨b, -, hb⟩ := yields_content_term.mp h
      exact ⟨b, hb⟩
  | interleave ts =>
      obtain ⟨parts, rfl⟩ := eq_interleave_of_ofPattern hstable hcontent
      obtain ⟨normal', hnormal', hr⟩ := Pattern.expands_iff.mp hexp
      rw [hnormal, Except.ok.injEq] at hnormal'
      subst hnormal'
      exact absurd ((hunfolds r).mpr hr) (Pattern.not_unfolds_interleave parts)

/-- Whatever a run for a pattern makes, it leaves the session sound, and **its tables
are made** for something. -/
theorem sound_pattern {c : Compiled} (hs : s.Sound book.definitions)
    (h : (pattern book p).Yields s c s') :
    s'.Sound book.definitions ∧ ∀ a ∈ c.automata, ∃ r cs, Made r a cs := by
  obtain ⟨normal, whole, content, -, -, -, h⟩ := yields_pattern h
  cases content with
  | term t =>
      obtain ⟨b, hb, rfl⟩ := yields_content_term.mp h
      obtain ⟨r, cs, hdelivers⟩ := delivers_boundedTerm hs hb
      refine ⟨hdelivers.sound, fun a ha => ?_⟩
      obtain rfl := List.mem_singleton.mp ha
      exact ⟨r, cs, hdelivers.made⟩
  | interleave ts =>
      obtain ⟨as, has, rfl⟩ := yields_content_interleave.mp h
      exact sound_blocks hs has

/-! ## Sessions in use -/

/-- The session is **reached** from a new one by compiling patterns that can be
compiled, at whatever places. -/
inductive Session.Reached (book : Rulebook) : Session → Prop
  | new : Session.Reached book {}
  | pattern {s s' : Session} {p : Pattern} {c : Compiled} (hs : Session.Reached book s)
      (h : (Compiling.pattern book p).Yields s c s') : Session.Reached book s'
  | located {s : Session} (location : Option String) (hs : Session.Reached book s) :
      Session.Reached book { s with location := location }

/-- A new session is sound: no table has been kept in it yet. -/
theorem sound_new (defs : OrderedTable String Pattern) : Session.Sound defs {} :=
  fun _ _ h => absurd h (by simp)

/-- Every session that is reached is **sound**. By induction on what has been compiled
in it before. -/
theorem sound_of_reached (h : s.Reached book) : s.Sound book.definitions := by
  induction h with
  | new => exact sound_new book.definitions
  | pattern _ h ih => exact (sound_pattern ih h).1
  | located location _ ih => exact ih

end TreeGrammar
