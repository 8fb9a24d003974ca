/-
Where a grammar is said to be at fault.

An element's name is the place of the warnings and errors that come up while its content
is compiled. Most errors have it, but not those that lowering finds, and not those that
normalizing finds in a definition that is compiled for a reference inside the content:
these are passed on as they are. So an error has **the place or none**, and which of the
two can be told from its cause and from whether a definition was being compiled
(`location_of_ofGrammar`).
-/
import TreeGrammar.Proofs.Compile.Refusal
import TreeGrammar.Proofs.Schema.DeclarationOrder

set_option autoImplicit false

namespace TreeGrammar

open Compiling

/-! ## The place of an error -/

/-- The cause is reported **without a place**, if it comes up in the midst of
the definitions. -/
def CompileCause.Unplaced (cause : CompileCause) (left : List String) : Prop :=
  cause = .interleaveInside ∨ cause.OfNormalizing ∧ left ≠ []

/-- The error names the place, **or none if its cause is reported without**. -/
def Failure.PlacedAt (place : String) (e : Failure) (left : List String) : Prop :=
  ∀ err, e = .compile err → (err.location = some place ∧ ¬ err.cause.Unplaced left) ∨
    (err.location = none ∧ err.cause.Unplaced left)

namespace Rulebook

variable {book : Rulebook} {place : String} {path left : List String} {name : String}
  {p : Pattern} {e : Failure}

/-- A failure raised here is placed where the session is, unless its cause is one that
has no place. -/
theorem placedAt_of_here {cause : CompileCause} (h : ¬ cause.Unplaced left) :
    (Failure.compile { cause, location := some place }).PlacedAt place left := by
  rintro err ⟨⟩
  exact .inl ⟨rfl, h⟩

theorem placedAt_of_ofLowering (h : e.OfLowering) : e.PlacedAt place left := by
  rintro err rfl
  obtain ⟨excess, hexcess⟩ | herr := h
  · cases hexcess
  · cases herr
    exact .inr ⟨rfl, .inl rfl⟩

theorem ResolvingFails.placedAt (h : book.ResolvingFails (some place) path name e left) :
    e.PlacedAt place left := by
  induction h with
  | cycle _ | undefined _ | interleave _ _ _ =>
      exact placedAt_of_here (by simp [CompileCause.Unplaced, CompileCause.OfNormalizing])
  | unread _ _ h =>
      rcases Content.ofPattern_eq_error h with ⟨cause, hcause, rfl⟩ | ⟨-, h⟩
      · rintro err ⟨⟩
        exact .inr ⟨rfl, .inr ⟨Pattern.ofNormalizing_of_normalize _ hcause, by simp⟩⟩
      · exact placedAt_of_ofLowering h
  | inside _ _ _ _ ih => exact ih

/-- Outside of definitions, what normalizing finds **has a place**. Such failures are
raised by a step that looks at the session. -/
theorem not_unplaced_of_normalize {cause : CompileCause} (h : p.normalize = .error cause) :
    ¬ cause.Unplaced [] := by
  have hcause := Pattern.ofNormalizing_of_normalize p h
  rintro (rfl | ⟨-, hne⟩)
  · exact hcause
  · exact hne rfl

theorem Strays.not_unplaced {cause : CompileCause} (h : book.Strays path name cause) :
    ¬ cause.Unplaced [] := by
  induction h with
  | cycle _ | undefined _ => simp [CompileCause.Unplaced, CompileCause.OfNormalizing]
  | unnormal _ h => exact not_unplaced_of_normalize h
  | next _ _ _ ih => exact ih

/-- So **whatever a pattern is refused for** has the place that the session has, or is
one of the failures that get none. -/
theorem Refuses.placedAt (h : book.Refuses (some place) p e left) : e.PlacedAt place left := by
  cases h with
  | misses h =>
      cases h with
      | unnormal h => exact placedAt_of_here (not_unplaced_of_normalize h)
      | strays _ h => exact placedAt_of_here h.not_unplaced
  | unread hwhole h =>
      rcases Content.ofPattern_eq_error h with ⟨cause, hcause, -⟩ | ⟨-, h⟩
      · -- a whole content has been normalized already
        rw [hwhole.stable.normalize_eq] at hcause
        cases hcause
      · exact placedAt_of_ofLowering h
  | resolvingFails _ _ _ h => exact h.placedAt
  | tooLarge h =>
      obtain ⟨found, -, rfl⟩ := h
      rintro err ⟨⟩

end Rulebook

/-! ## Grammars -/

namespace Schema

variable {book : Rulebook} {kinds : OrderedTable String ElementKind} {s s' : Session}
  {tag : String} {d : Declaration} {ds : List (String × Declaration)} {e : Failure}
  {err : CompileError} {limits : Limits} {g : Grammar}

/-- A check of names, run over a list, fails **with a name's fault** if it fails at all. The
checks of elements and of attributes are the two cases that are used. -/
theorem eq_name_of_forM {check : String → Except Failure Unit}
    (hcheck : ∀ name e, check name = .error e → ∃ fault, e = .name fault) {names : List String}
    (h : names.forM check = .error e) : ∃ fault, e = .name fault := by
  induction names with
  | nil => cases h
  | cons name names ih =>
      rcases Pattern.bind_eq_error h with h | ⟨-, -, h⟩
      · exact hcheck name e h
      · exact ih h

theorem eq_name_of_checkElement (name : String) (e : Failure)
    (h : Name.checkElement name = .error e) : ∃ fault, e = .name fault := by
  unfold Name.checkElement at h
  split at h <;> cases h
  exact ⟨_, rfl⟩

theorem eq_name_of_checkAttribute (name : String) (e : Failure)
    (h : Name.checkAttribute name = .error e) : ∃ fault, e = .name fault := by
  unfold Name.checkAttribute at h
  split at h <;> cases h
  exact ⟨_, rfl⟩

/-- A declaration that does not compile for another reason than a name does not
**because of its content**. -/
theorem fails_pattern_of_compileRule
    (h : (compileRule book kinds tag d).Fails s (.compile err) s') :
    (pattern book d.content).Fails { s with location := some tag } (.compile err) s' := by
  have hname {x : Except Failure Unit} {s s' : Session}
      (hx : (ofExcept x).Fails s (.compile err) s')
      (hnames : ∀ e, x = .error e → ∃ fault, e = .name fault) : False := by
    obtain ⟨fault, hfault⟩ := hnames _ (eq_error_of_fails_ofExcept hx)
    cases hfault
  -- of the steps of a rule only the pattern can fail with an error of compiling
  rw [compileRule, fails_bind] at h
  rcases h with h | ⟨⟨⟩, s₁, h₁, h⟩
  · exact (hname h fun e => eq_name_of_checkElement tag e).elim
  rw [fails_bind] at h
  rcases h with h | ⟨⟨⟩, s₂, h₂, h⟩
  · exact (hname h fun e => eq_name_of_forM eq_name_of_checkAttribute).elim
  rw [fails_bind] at h
  rcases h with h | ⟨⟨⟩, s₃, h₃, h⟩
  · exact absurd h not_fails_modify
  rw [yields_ofExcept] at h₁ h₂
  rw [yields_modify, h₂.2, h₁.2] at h₃
  rw [fails_bind, h₃] at h
  rcases h with h | ⟨c, s₄, -, h⟩
  · exact h
  rw [fails_bind] at h
  rcases h with h | ⟨-, s₅, -, h⟩
  · exact (hname h fun e => eq_name_of_forM eq_name_of_checkElement).elim
  · exact absurd h not_fails_pure

/-- Declarations that do not compile have **a first** that does not. Those before it
compile, and the session that they leave is the one that it fails in. -/
theorem exists_first_fails (h : (compileRules book kinds ds).Fails s e s') :
    ∃ before tag d after rs s₁, ds = before ++ (tag, d) :: after ∧
      (compileRules book kinds before).Yields s rs s₁ ∧
      (compileRule book kinds tag d).Fails s₁ e s' := by
  induction ds generalizing s with
  | nil =>
      rw [compileRules] at h
      exact absurd h not_fails_pure
  | cons p rest ih =>
      rw [compileRules, fails_bind] at h
      rcases h with h | ⟨r, s₁, hr, h⟩
      · exact ⟨[], p.1, p.2, rest, [], s, rfl, yields_compileRules_nil.mpr ⟨rfl, rfl⟩, h⟩
      rw [fails_bind] at h
      rcases h with h | ⟨rs, s₂, -, h⟩
      · obtain ⟨before, tag, d, after, rs, s₂, rfl, hrs, h⟩ := ih h
        exact ⟨p :: before, tag, d, after, (p.1, r) :: rs, s₂, rfl,
          yields_compileRules_cons.mpr ⟨r, s₁, rs, hr, hrs, rfl⟩, h⟩
      · exact absurd h not_fails_pure

/-- If every element that a grammar mentions is declared, it fails to compile **at an
element**: those before it compile, and its content does not. The error then names the
element, unless an interleave was found inside another construct, or fault with the
construct of a definition in whose midst the compilation was. -/
theorem location_of_ofGrammar
    (hmentions : (∀ tag, g.start = some tag → g.elements.contains tag = true) ∧
      ∀ tag ∈ g.kinds.keys, g.elements.contains tag = true)
    (h : ofGrammar limits g = .error (.compile err)) :
    ∃ before tag d after rs s s', g.elements.entries = before ++ (tag, d) :: after ∧
      (compileRules (bookOf limits g) g.kinds before).Yields {} rs s ∧
      (pattern (bookOf limits g) d.content).Fails { s with location := some tag }
        (.compile err) s' ∧
      (err.location = some tag ∨ err.location = none) ∧
      (err.location = some tag ↔
        ¬ (err.cause = .interleaveInside ∨ err.cause.OfNormalizing ∧ s'.inProgress ≠ [])) := by
  rw [ofGrammar] at h
  rcases Pattern.bind_eq_error h with h | ⟨-, -, h⟩
  · obtain ⟨excess, hexcess⟩ := Limits.eq_limit_of_check h
    cases hexcess
  rcases Pattern.bind_eq_error h with h | ⟨-, -, h⟩
  · rw [checkMentions_eq_ok_iff.mpr hmentions] at h
    cases h
  generalize hrun : (compileRules { definitions := g.definitions, limits } g.kinds
    g.elements.entries).run.run {} = result at h
  obtain ⟨result, session⟩ := result
  rcases Pattern.bind_eq_error h with rfl | ⟨rs, -, h⟩
  · -- the elements before the first that fails leave no definition in progress
    obtain ⟨before, tag, d, after, rs, s, hsplit, hbefore, hrule⟩ := exists_first_fails hrun
    have hpattern := fails_pattern_of_compileRule hrule
    obtain ⟨hready, -, -⟩ :=
      numbersItsTables_compileRules _ g.kinds before {} rs s (Session.ready_new _) hbefore
    have hat : Session.At (some tag) [] { s with location := some tag } :=
      ⟨rfl, hready.groundedAt.inProgress_eq⟩
    refine ⟨before, tag, d, after, rs, s, session, hsplit, hbefore, hpattern, ?_⟩
    rcases ends_pattern (bookOf limits g)
      (some tag) d.content _ hat with ⟨c, s₁, hc, -⟩ | ⟨e, s₁, he, hrefuses⟩
    · exact absurd hc (hpattern.not_yields c s₁)
    · obtain ⟨rfl, rfl⟩ := he.unique hpattern
      rcases hrefuses.placedAt err rfl with ⟨hplace, hcause⟩ | ⟨hplace, hcause⟩
      · exact ⟨.inl hplace, iff_of_true hplace hcause⟩
      · refine ⟨.inr hplace, iff_of_false ?_ (not_not_intro hcause)⟩
        rw [hplace]
        simp
  · cases h

/-- A run that fails makes the grammar fail, with the same failure. The checks that come
before have succeeded, so nothing else is reported. -/
theorem ofGrammar_of_fails (hsize : limits.check .elements g.elements.size = .ok ())
    (hmentions : checkMentions g = .ok ())
    (h : (compileRules (bookOf limits g) g.kinds g.elements.entries).Fails {} e s') :
    ofGrammar limits g = .error e := by
  have hrun : (compileRules { definitions := g.definitions, limits } g.kinds
    g.elements.entries).run.run {} = (.error e, s') := h
  rw [ofGrammar, hsize, hmentions, hrun]
  rfl

/-- A list of the content, and nothing else. -/
def listOf (content : Pattern) : Grammar where
  elements := .ofList [("list", { content })]

theorem mentions_listOf (content : Pattern) :
    (∀ tag, (listOf content).start = some tag → (listOf content).elements.contains tag = true) ∧
      ∀ tag ∈ (listOf content).kinds.keys, (listOf content).elements.contains tag = true :=
  ⟨nofun, fun _ h => absurd h List.not_mem_nil⟩

/-- The grammar of one element fails **as its content does**. -/
theorem ofGrammar_listOf {content : Pattern}
    (h : (pattern (bookOf .standard (listOf content)) content).Fails
      { location := some "list" } e s') :
    ofGrammar .standard (listOf content) = .error e := by
  have hname : Name.checkElement "list" = .ok () := by decide
  have hrule :
      (compileRule (bookOf .standard (listOf content)) .empty "list" { content }).Fails {} e
        s' := by
    rw [compileRule]
    refine Yields.fails_bind (yields_ofExcept.mpr ⟨hname, rfl⟩) ?_
    refine Yields.fails_bind (x := ⟨⟩) (yields_ofExcept.mpr ⟨rfl, rfl⟩) ?_
    exact Yields.fails_bind (x := ⟨⟩) (yields_modify.mpr rfl) (h.bind _)
  exact ofGrammar_of_fails rfl (checkMentions_eq_ok_iff.mpr (mentions_listOf content))
    (hrule.bind _)

/-- An `a` and then an interleave. -/
def aThenBoth : Pattern := .sequence [.token "a", .interleave [.token "b", .token "c"]]

/-- The error has **no place**, though everything mentioned is declared and it is the
content of the one element that does not compile. -/
theorem location_ne_of_ofGrammar :
    ((∀ tag, (listOf aThenBoth).start = some tag →
        (listOf aThenBoth).elements.contains tag = true) ∧
      ∀ tag ∈ (listOf aThenBoth).kinds.keys, (listOf aThenBoth).elements.contains tag = true) ∧
    (∃ s, (pattern (bookOf .standard (listOf aThenBoth)) aThenBoth).Fails
      { location := some "list" } (.compile { cause := .interleaveInside }) s) ∧
    ofGrammar .standard (listOf aThenBoth) = .error (.compile { cause := .interleaveInside }) ∧
    ({ cause := .interleaveInside } : CompileError).location ≠ some "list" := by
  have hfails :
      (pattern (bookOf .standard (listOf aThenBoth)) aThenBoth).Fails { location := some "list" }
        (.compile { cause := .interleaveInside }) { location := some "list" } := by
    have hnormal : aThenBoth.normalize = .ok aThenBoth := rfl
    have hcontent : Content.ofPattern (bookOf .standard (listOf aThenBoth)).limits aThenBoth =
        .error (.compile { cause := .interleaveInside }) := rfl
    rw [pattern, hnormal, orFailHere, pure_bind, wholeContent_of_ne (by simp [aThenBoth]),
      pure_bind, hcontent]
    exact (fails_ofExcept _ _).bind _
  exact ⟨mentions_listOf aThenBoth, ⟨_, hfails⟩, ofGrammar_listOf hfails, by simp⟩

/-- A choice of nothing is found by normalizing, in no definition: the error names
the element. -/
theorem location_of_ofGrammar_listOf :
    ∃ err, ofGrammar .standard (listOf (.choice [])) = .error (.compile err) ∧
      err.location = some "list" := by
  have hfails : (pattern (bookOf .standard (listOf (.choice []))) (.choice [])).Fails
      { location := some "list" } (.compile { cause := .emptyChoice, location := some "list" })
      { location := some "list" } := rfl
  have hgrammar := ofGrammar_listOf hfails
  refine ⟨_, hgrammar, ?_⟩
  obtain ⟨before, tag, d, after, rs, s, s', hsplit, hbefore, hd, -, hplace⟩ :=
    location_of_ofGrammar (mentions_listOf _) hgrammar
  obtain ⟨rfl, hcons⟩ := (List.append_eq_singleton_iff.mp hsplit.symm).resolve_right (by simp)
  obtain ⟨hhead, -⟩ := List.cons.inj hcons
  obtain ⟨rfl, rfl⟩ := Prod.mk.inj hhead
  obtain ⟨-, rfl⟩ := yields_compileRules_nil.mp hbefore
  obtain ⟨-, rfl⟩ := hd.unique hfails
  refine hplace.mpr ?_
  rintro (hcause | ⟨-, hleft⟩)
  · cases hcause
  · exact hleft rfl

end Schema

end TreeGrammar
