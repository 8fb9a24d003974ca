/-
What references a pattern can have.

Definitions refer to each other, and to names without a definition. A pattern compiles
only if following references from it comes to an end and finds every definition on the
way (`Founded`); it is refused for a cycle only if there is one to be reached, and for a
missing definition only if one is. If every definition that is reached is regular
content within the bounds, on no cycle, then all that is left to go wrong is the size of
the table (`pattern_references`).
-/
import TreeGrammar.Proofs.Compile.Refusal

set_option autoImplicit false

namespace TreeGrammar

open Compiling

/-! ## The graph of references -/

namespace Rulebook

/-- The definition of the name **refers** to the other: a reference to it stands
in the body. -/
def Refers (book : Rulebook) (name other : String) : Prop :=
  ∃ body, book.definitions.get? name = some body ∧ body.Mentions other

/-- References lead from the pattern **to the name**, directly or
through definitions. -/
def Reaches (book : Rulebook) (p : Pattern) (name : String) : Prop :=
  ∃ first, p.Mentions first ∧ Relation.ReflTransGen book.Refers first name

/-- Following references from the name **comes to an end**, and finds every definition
on the way. -/
inductive Founded (book : Rulebook) : String → Prop
  | intro {name : String} {body : Pattern} (hdef : book.definitions.get? name = some body)
      (h : ∀ other, body.Mentions other → Founded book other) : Founded book name

variable {book : Rulebook} {place : Option String} {path left : List String}
  {name other : String} {p whole body : Pattern} {t : Term} {e : Failure}
  {cause : CompileCause} {k : Nat}

theorem refers_of_defines (h : book.Defines name t) (hother : other ∈ t.names) :
    book.Refers name other := by
  obtain ⟨body, hdef, hcontent⟩ := h
  refine ⟨body, hdef, (Content.mem_namesAll_terms_iff hcontent).mp ?_⟩
  rwa [Content.terms, Term.namesAll, Term.namesAll, List.append_nil]

/-- What a founded definition refers to is founded. -/
theorem Founded.of_refers (h : book.Founded name) (hrefers : book.Refers name other) :
    book.Founded other := by
  cases h with
  | intro hdef hall =>
      obtain ⟨body, hdef', hother⟩ := hrefers
      rw [hdef, Option.some.injEq] at hdef'
      subst hdef'
      exact hall other hother

theorem Founded.of_reflTransGen (h : book.Founded name)
    (hreach : Relation.ReflTransGen book.Refers name other) : book.Founded other := by
  induction hreach with
  | refl => exact h
  | tail _ hrefers ih => exact ih.of_refers hrefers

/-- No name that following references comes to an end from is **on a cycle**. Going
around a cycle once more would be a chain of references without an end. -/
theorem Founded.acyclic (h : book.Founded name) : ¬ Relation.TransGen book.Refers name name := by
  induction h with
  | @intro name body hdef _ ih =>
      intro hcycle
      obtain ⟨other, ⟨body', hdef', hother⟩, hback⟩ := Relation.TransGen.head'_iff.mp hcycle
      rw [hdef, Option.some.injEq] at hdef'
      subst hdef'
      -- the cycle can be entered at the next name as well
      exact ih other hother (Relation.TransGen.tail' hback ⟨body, hdef, hother⟩)

/-! ## What compiles -/

/-- The names in a grounded term are founded: each of their definitions can be unfolded,
and again those in them, **until no reference is left**. -/
theorem founded_of_grounded (h : t.Grounded book k) : ∀ name ∈ t.names, book.Founded name := by
  induction h with
  | token x => exact fun name hname => absurd hname List.not_mem_nil
  | sequence _ ih | choice _ _ ih =>
      intro name hname
      obtain ⟨t, ht, hname⟩ := Term.mem_namesAll_iff.mp hname
      exact ih t ht name hname
  | optional _ ih | kleene _ ih | plus _ ih => exact ih
  | @ref _ name body t hdef hcontent _ ih =>
      intro other hother
      rw [List.mem_singleton.mp hother]
      refine .intro hdef fun other hother => ih other ?_
      simpa [Content.terms, Term.namesAll] using (Content.mem_namesAll_terms_iff hcontent).mpr
        hother

/-- A lone reference comes to an end **if what it leads to does**. It adds the lone
references on the way to what follows from their end. -/
theorem ResolvesTo.founded (h : book.ResolvesTo name whole)
    (hwhole : ∀ other, whole.Mentions other → book.Founded other) : book.Founded name := by
  induction h with
  | interleave hdef h =>
      exact .intro hdef fun other hother => hwhole other
        ((Pattern.mentions_iff_of_normalize _ _ h).mpr hother)
  | regular _ _ _ _ => exact hwhole _ (Pattern.mentions_ref.mpr rfl)
  | @next name other body _ hdef hnext _ ih =>
      refine .intro hdef fun other' hother => ?_
      obtain rfl :=
        Pattern.mentions_ref.mp ((Pattern.mentions_iff_of_normalize _ _ hnext).mpr hother)
      exact ih hwhole

/-- What a whole content mentions is reached along the lone references that were
followed to it. By induction on the lone references. -/
theorem ResolvesTo.reflTransGen (h : book.ResolvesTo name whole) (hother : whole.Mentions other) :
    Relation.ReflTransGen book.Refers name other := by
  induction h with
  | @interleave name body _ hdef h =>
      exact .single ⟨body, hdef, (Pattern.mentions_iff_of_normalize _ _ h).mp hother⟩
  | regular _ _ _ _ =>
      obtain rfl := Pattern.mentions_ref.mp hother
      exact .refl
  | @next name next body _ hdef hnext _ ih =>
      exact .head ⟨body, hdef, Pattern.mentions_of_normalize_ref hnext⟩ (ih hother)

/-- What the whole content of a pattern mentions **is reached** from the pattern. -/
theorem Whole.reaches (h : book.Whole p whole) (hother : whole.Mentions other) :
    book.Reaches p other := by
  cases h with
  | self h _ => exact ⟨other, (Pattern.mentions_iff_of_normalize _ _ h).mp hother, .refl⟩
  | @resolves name _ hnormal h =>
      exact ⟨name, Pattern.mentions_of_normalize_ref hnormal, h.reflTransGen hother⟩

/-- If all that the whole content mentions is founded, then so is all that the
pattern reaches. The definitions on the way are lone references, which have nothing
else in them. -/
theorem Whole.founded (h : book.Whole p whole)
    (hwhole : ∀ other, whole.Mentions other → book.Founded other) (hreach : book.Reaches p name) :
    book.Founded name := by
  obtain ⟨first, hfirst, hreach⟩ := hreach
  refine Founded.of_reflTransGen ?_ hreach
  cases h with
  | self h _ => exact hwhole first ((Pattern.mentions_iff_of_normalize _ _ h).mpr hfirst)
  | resolves hnormal h =>
      obtain rfl :=
        Pattern.mentions_ref.mp ((Pattern.mentions_iff_of_normalize _ _ hnormal).mpr hfirst)
      exact h.founded hwhole

end Rulebook

namespace Compiling

variable {book : Rulebook} {s s' : Session} {a : Automaton} {as : List Automaton}
  {c : Compiled} {t : Term} {ts : List Term} {content : Content} {p : Pattern}
  {name : String}

/-- A bounded term that compiles in a ready session is grounded. -/
theorem grounded_of_boundedTerm (hs : s.Ready book) (h : (boundedTerm book t).Yields s a s') :
    ∃ k, t.Grounded book k := by
  obtain ⟨hrun, -⟩ := yields_boundedTerm.mp h
  rw [hs.groundedAt.inProgress_eq] at hrun
  exact (settles_term (settles_resolve book []) t s a s' hs.groundedAt hrun).2.2

theorem grounded_of_blocks (hs : s.Ready book) (h : (blocks book ts).Yields s as s') :
    ∀ t ∈ ts, ∃ k, t.Grounded book k := by
  induction ts generalizing s as with
  | nil => exact fun t ht => absurd ht List.not_mem_nil
  | cons t ts ih =>
      obtain ⟨a, s₁, rest, ha, hrest, -⟩ := yields_blocks_cons.mp h
      have hs₁ := (numbersItsTables_boundedTerm book t s a s₁ hs ha).1
      exact List.forall_mem_cons.mpr ⟨grounded_of_boundedTerm hs ha, ih hs₁ hrest⟩

theorem grounded_of_content (hs : s.Ready book)
    (h : (Compiling.content book content).Yields s c s') :
    ∀ t ∈ content.terms, ∃ k, t.Grounded book k := by
  cases content with
  | term t =>
      obtain ⟨a, ha, -⟩ := yields_content_term.mp h
      exact List.forall_mem_singleton.mpr (grounded_of_boundedTerm hs ha)
  | interleave ts =>
      obtain ⟨as, has, -⟩ := yields_content_interleave.mp h
      exact grounded_of_blocks hs has

/-- From a pattern that compiles, following references **comes to an end**. What
compiles is grounded, and being grounded counts how deep references go. -/
theorem founded_of_pattern (hs : s.Ready book) (h : (pattern book p).Yields s c s')
    (hreach : book.Reaches p name) : book.Founded name := by
  rcases pattern_eq book p with ⟨whole, hwhole, heq⟩ | ⟨cause, -, heq⟩
  · rw [heq, yields_bind] at h
    obtain ⟨content, s₁, hcontent, h⟩ := h
    rw [yields_ofExcept] at hcontent
    obtain ⟨hcontent, rfl⟩ := hcontent
    refine hwhole.founded (fun other hother => ?_) hreach
    rw [← Content.mem_namesAll_terms_iff hcontent, Term.mem_namesAll_iff] at hother
    obtain ⟨t, ht, hother⟩ := hother
    obtain ⟨k, hk⟩ := grounded_of_content hs h t ht
    exact Rulebook.founded_of_grounded hk other hother
  · rw [heq] at h
    exact absurd h not_yields_failHere

end Compiling

/-! ## What is refused -/

/-- The failure blames **a reference**: one that closes a cycle or one to nothing. -/
def Failure.BlamesReference (e : Failure) : Prop :=
  e.sort = .compile .cyclicReference ∨ e.sort = .compile .unresolvedReference

/-- Normalizing never blames a reference: it does not look any of them up. Its causes
are about the shape of a pattern only. -/
theorem CompileCause.OfNormalizing.not_blamesReference {cause : CompileCause}
    {place : Option String} (h : cause.OfNormalizing) :
    ¬ (Failure.compile { cause, location := place }).BlamesReference := by
  cases cause <;> simp_all [OfNormalizing, Failure.BlamesReference, Failure.sort, CompileCause.kind]

theorem Failure.OfLowering.not_blamesReference {e : Failure} (h : e.OfLowering) :
    ¬ e.BlamesReference := by
  obtain ⟨excess, rfl⟩ | rfl := h <;> simp [BlamesReference, sort, CompileCause.kind]

namespace Content

variable {limits : Limits} {p q : Pattern} {e : Failure} {name : String}

/-- So what is refused when a content is read **is not refused for a reference**. -/
theorem not_blamesReference_of_ofPattern (h : ofPattern limits p = .error e) :
    ¬ e.BlamesReference := by
  rcases ofPattern_eq_error h with ⟨cause, hcause, rfl⟩ | ⟨-, h⟩
  · exact (Pattern.ofNormalizing_of_normalize p hcause).not_blamesReference
  · exact h.not_blamesReference

/-- Reading a content normalizes it, so reading the normal form gives the same. -/
theorem ofPattern_of_normalize (h : p.normalize = .ok q) :
    ofPattern limits q = ofPattern limits p := by
  rw [ofPattern, ofPattern, (Pattern.stable_normalize p q h).normalize_eq, h]

theorem ofPattern_ref : ofPattern limits (.ref name) = .ok (.term (.ref name)) := by
  refine ofPattern_eq_ok_iff.mpr ⟨.ref name, rfl, ?_, rfl⟩
  exact .inl ⟨by rw [← Term.exists_ofPattern?_iff]; exact ⟨_, rfl⟩, Nat.zero_le _⟩

end Content

namespace Rulebook

variable {book : Rulebook} {place : Option String} {path left : List String}
  {name other : String} {p whole body : Pattern} {t : Term} {e : Failure}
  {cause : CompileCause} {k : Nat}

/-- Something is wrong **with the definition** of the name, and the
failure says what. -/
inductive FaultyDefinition (book : Rulebook) (name : String) : Failure → Prop
  | cycle {path : List String} {place : Option String}
      (h : Relation.TransGen book.Refers name name) :
      FaultyDefinition book name
        (.compile { cause := .referenceCycle path name, location := place })
  | undefined {place : Option String} (h : book.definitions.get? name = none) :
      FaultyDefinition book name (.compile { cause := .undefinedReference name, location := place })
  | irregular {body : Pattern} {e : Failure} (hdef : book.definitions.get? name = some body)
      (hbody : ∀ t, Content.ofPattern book.limits body ≠ .ok (.term t)) (he : ¬ e.BlamesReference) :
      FaultyDefinition book name e

/-- A name that is not among those of a path that leads to it can be put
**at its end**. -/
theorem forall_mem_append_transGen (hpath : ∀ q ∈ path, Relation.TransGen book.Refers q name)
    (hrefers : book.Refers name other) :
    ∀ q ∈ path ++ [name], Relation.TransGen book.Refers q other := by
  intro q hq
  rcases List.mem_append.mp hq with hq | hq
  · exact (hpath q hq).tail hrefers
  · rw [List.mem_singleton.mp hq]
    exact .single hrefers

/-- Where resolving a name fails, **some definition on the way is at fault**. The
path, which the failure may close to a circle, consists of names that lead to the
one at hand. -/
theorem ResolvingFails.exists_faultyDefinition (h : book.ResolvingFails place path name e left)
    (hpath : ∀ q ∈ path, Relation.TransGen book.Refers q name) :
    ∃ other, Relation.ReflTransGen book.Refers name other ∧ book.FaultyDefinition other e := by
  induction h with
  | cycle hmem => exact ⟨_, .refl, .cycle (hpath _ hmem)⟩
  | undefined hdef => exact ⟨_, .refl, .undefined hdef⟩
  | unread _ hdef hbody =>
      refine ⟨_, .refl, .irregular hdef (fun t => ?_)
        (Content.not_blamesReference_of_ofPattern hbody)⟩
      rw [hbody]
      simp
  | interleave _ hdef hbody =>
      refine ⟨_, .refl, .irregular hdef (fun t => ?_) ?_⟩
      · rw [hbody]
        simp
      · simp [Failure.BlamesReference, Failure.sort, CompileCause.kind]
  | inside _ hdef hother _ ih =>
      have hrefers := refers_of_defines hdef hother
      obtain ⟨last, hreach, hfaulty⟩ := ih (forall_mem_append_transGen hpath hrefers)
      exact ⟨last, .head hrefers hreach, hfaulty⟩

/-- The same holds where following lone references goes astray. It ends at a name
without a definition or at one that was followed before. -/
theorem Strays.exists_faultyDefinition (h : book.Strays path name cause)
    (hpath : ∀ q ∈ path, Relation.TransGen book.Refers q name) :
    ∃ other, Relation.ReflTransGen book.Refers name other ∧
      book.FaultyDefinition other (.compile { cause, location := place }) := by
  induction h with
  | cycle hmem => exact ⟨_, .refl, .cycle (hpath _ hmem)⟩
  | undefined hdef => exact ⟨_, .refl, .undefined hdef⟩
  | unnormal hdef hbody =>
      refine ⟨_, .refl, .irregular hdef (fun t ht => ?_)
        (Pattern.ofNormalizing_of_normalize _ hbody).not_blamesReference⟩
      obtain ⟨q, hq, -⟩ := Content.ofPattern_eq_ok_iff.mp ht
      rw [hbody] at hq
      cases hq
  | next hdef hnext _ ih =>
      have hrefers : book.Refers _ _ := ⟨_, hdef, Pattern.mentions_of_normalize_ref hnext⟩
      obtain ⟨last, hreach, hfaulty⟩ := ih (forall_mem_append_transGen hpath hrefers)
      exact ⟨last, .head hrefers hreach, hfaulty⟩

/-- A lone reference leads to a lone reference, or to **a definition that is an
interleave**. An interleave behind a reference is allowed as a whole content only. -/
theorem ResolvesTo.exists_end (h : book.ResolvesTo name whole) : (∃ other, whole = .ref other) ∨
    ∃ other body parts, Relation.ReflTransGen book.Refers name other ∧
      book.definitions.get? other = some body ∧
      body.normalize = .ok (.interleave parts) := by
  induction h with
  | interleave hdef h => exact .inr ⟨_, _, _, .refl, hdef, h⟩
  | regular _ _ _ _ => exact .inl ⟨_, rfl⟩
  | next hdef hnext _ ih =>
      have hrefers : book.Refers _ _ := ⟨_, hdef, Pattern.mentions_of_normalize_ref hnext⟩
      refine ih.imp_right fun ⟨other, body, parts, hreach, h⟩ =>
        ⟨other, body, parts, .head hrefers hreach, h⟩

/-- An interleave is never read as a term, so a definition that is one cannot be
referred to inside a content. -/
theorem ofPattern_ne_term_of_interleave {limits : Limits} {parts : List Pattern}
    (h : body.normalize = .ok (.interleave parts)) (t : Term) :
    Content.ofPattern limits body ≠ .ok (.term t) := by
  intro ht
  obtain ⟨q, hq, -, hreads⟩ := Content.ofPattern_eq_ok_iff.mp ht
  rw [h, Except.ok.injEq] at hq
  subst hq
  rw [Content.read?_interleave] at hreads
  obtain ⟨ts, -, hcontra⟩ := Option.map_eq_some_iff.mp hreads
  cases hcontra

/-- A pattern is refused for the size of a table, for **a definition that it reaches**,
or because it is no regular content itself. -/
theorem Refuses.cases (h : book.Refuses place p e left) : book.TooLarge e ∨
    (∃ name, book.Reaches p name ∧ book.FaultyDefinition name e) ∨
      (∀ t, Content.ofPattern book.limits p ≠ .ok (.term t)) ∧ ¬ e.BlamesReference := by
  cases h with
  | tooLarge h => exact .inl h
  | misses h =>
      cases h with
      | unnormal h =>
          refine .inr
            (.inr ⟨fun t ht => ?_, (Pattern.ofNormalizing_of_normalize p h).not_blamesReference⟩)
          obtain ⟨q, hq, -⟩ := Content.ofPattern_eq_ok_iff.mp ht
          rw [h] at hq
          cases hq
      | @strays name _ hnormal h =>
          obtain ⟨last, hreach, hfaulty⟩ :=
            h.exists_faultyDefinition fun q hq => absurd hq List.not_mem_nil
          exact .inr
            (.inl ⟨last, ⟨name, Pattern.mentions_of_normalize_ref hnormal, hreach⟩, hfaulty⟩)
  | unread hwhole h =>
      have hblames := Content.not_blamesReference_of_ofPattern h
      cases hwhole with
      | self hnormal _ =>
          refine .inr (.inr ⟨fun t ht => ?_, hblames⟩)
          rw [← Content.ofPattern_of_normalize hnormal, h] at ht
          cases ht
      | @resolves name whole hnormal hresolves =>
          rcases hresolves.exists_end with ⟨other, rfl⟩ | ⟨other, body, parts, hreach, hdef, hbody⟩
          · rw [Content.ofPattern_ref] at h
            cases h
          · exact .inr (.inl ⟨other, ⟨name, Pattern.mentions_of_normalize_ref hnormal, hreach⟩,
              .irregular hdef (ofPattern_ne_term_of_interleave hbody) hblames⟩)
  -- a name in the whole content is reached through the lone references that were followed
  | resolvingFails hwhole hcontent hname h =>
      obtain ⟨last, hreach, hfaulty⟩ :=
        h.exists_faultyDefinition fun q hq => absurd hq List.not_mem_nil
      obtain ⟨first, hfirst, hreach'⟩ :=
        hwhole.reaches ((Content.mem_namesAll_terms_iff hcontent).mp hname)
      exact .inr (.inl ⟨last, ⟨first, hfirst, hreach'.trans hreach⟩, hfaulty⟩)

/-- The names that are left behind are of definitions, **none of them twice**. By
induction on how the reference fails; a definition is entered only if its name is not
among those being compiled. -/
theorem ResolvingFails.left_spec (h : book.ResolvingFails place path name e left)
    (hnodup : path.Nodup) (hpath : ∀ q ∈ path, ∃ body, book.definitions.get? q = some body) :
    left.Nodup ∧ ∀ q ∈ left, ∃ body, book.definitions.get? q = some body := by
  have hinside {path : List String} {name : String} {body : Pattern} (hname : name ∉ path)
      (hdef : book.definitions.get? name = some body) (hnodup : path.Nodup)
      (hpath : ∀ q ∈ path, ∃ body, book.definitions.get? q = some body) :
      (path ++ [name]).Nodup ∧ ∀ q ∈ path ++ [name], ∃ body, book.definitions.get? q =
        some body := by
    refine ⟨List.nodup_append.mpr ⟨hnodup, List.nodup_singleton name, ?_⟩, fun q hq => ?_⟩
    · rintro q hq _ hother rfl
      rw [List.mem_singleton.mp hother] at hq
      exact hname hq
    · rcases List.mem_append.mp hq with hq | hq
      · exact hpath q hq
      · rw [List.mem_singleton.mp hq]
        exact ⟨body, hdef⟩
  -- whatever the failure, the path is longer by names of definitions that were not on it
  induction h with
  | cycle _ | undefined _ => exact ⟨hnodup, hpath⟩
  | unread hname hdef _ | interleave hname hdef _ => exact hinside hname hdef hnodup hpath
  | inside hname hdef _ _ ih =>
      obtain ⟨body, hdef, -⟩ := hdef
      obtain ⟨hnodup, hpath⟩ := hinside hname hdef hnodup hpath
      exact ih hnodup hpath

/-- The names that a refusal leaves in progress are distinct, and each has a definition:
they were entered one inside the other. -/
theorem Refuses.left_spec (h : book.Refuses place p e left) :
    left.Nodup ∧ ∀ q ∈ left, ∃ body, book.definitions.get? q = some body := by
  have hnil : ∀ q ∈ ([] : List String), ∃ body, book.definitions.get? q = some body :=
    fun q hq => absurd hq List.not_mem_nil
  cases h with
  | misses _ | unread _ _ | tooLarge _ => exact ⟨List.nodup_nil, hnil⟩
  | resolvingFails _ _ _ h => exact h.left_spec List.nodup_nil hnil

end Rulebook

/-! ## References, by way of what is compiled -/

namespace Compiling

/-- In a new session a pattern is compiled, or it is refused in the midst of
definitions of which **none is there twice**. It is refused for a cycle only if a name
on one is reached, and for a missing definition only if a name without one is; it is
compiled only if every name that is reached is defined and on no cycle. If these are
all of regular contents within the bounds, and the pattern is, it is refused for the
size of its table only. -/
theorem pattern_references (book : Rulebook) (p : Pattern) :
    ((∃ c s, (pattern book p).Yields {} c s) ∨
      ∃ e s, (pattern book p).Fails {} e s ∧ s.inProgress.Nodup ∧
        ∀ name ∈ s.inProgress, ∃ body, book.definitions.get? name = some body) ∧
    (∀ e s, (pattern book p).Fails {} e s →
      (e.sort = .compile .cyclicReference →
        ∃ name, book.Reaches p name ∧ Relation.TransGen book.Refers name name) ∧
      (e.sort = .compile .unresolvedReference →
        ∃ name, book.Reaches p name ∧ book.definitions.get? name = none)) ∧
    (∀ c s, (pattern book p).Yields {} c s → ∀ name, book.Reaches p name →
      (∃ body, book.definitions.get? name = some body) ∧
      ¬ Relation.TransGen book.Refers name name) ∧
    ((∀ name, book.Reaches p name → ¬ Relation.TransGen book.Refers name name ∧
        ∃ body t, book.definitions.get? name = some body ∧
          Content.ofPattern book.limits body = .ok (.term t)) →
      (∃ t, Content.ofPattern book.limits p = .ok (.term t)) →
      ∀ e s, (pattern book p).Fails {} e s → ∃ found, book.limits.automatonStates < found ∧
        e = .limit ⟨.automatonStates, found, book.limits.automatonStates⟩) := by
  -- a run has one outcome, so what a refusal can be says what every failure is
  have hends := ends_pattern book none p {} ⟨rfl, rfl⟩
  have hrefuses : ∀ e s, (pattern book p).Fails {} e s → book.Refuses none p e s.inProgress := by
    intro e s he
    rcases hends with ⟨c, s', hc, -⟩ | ⟨e', s', he', h⟩
    · exact absurd hc (he.not_yields c s')
    · obtain ⟨rfl, rfl⟩ := he.unique he'
      exact h
  refine ⟨?_, fun e s he => ?_, fun c s hc name hreach => ?_, fun hdefs hp e s he => ?_⟩
  · rcases hends with ⟨c, s, hc, -⟩ | ⟨e, s, he, h⟩
    · exact .inl ⟨c, s, hc⟩
    · exact .inr ⟨e, s, he, h.left_spec⟩
  · rcases (hrefuses e s he).cases with ⟨found, -, rfl⟩ | ⟨name, hreach, hfaulty⟩ | ⟨-, hblames⟩
    · exact ⟨nofun, nofun⟩
    · cases hfaulty with
      | cycle hcycle => exact ⟨fun _ => ⟨name, hreach, hcycle⟩, nofun⟩
      | undefined hdef => exact ⟨nofun, fun _ => ⟨name, hreach, hdef⟩⟩
      | irregular _ _ hblames =>
          exact ⟨fun h => absurd (.inl h) hblames, fun h => absurd (.inr h) hblames⟩
    · exact ⟨fun h => absurd (.inl h) hblames, fun h => absurd (.inr h) hblames⟩
  · have hfounded := founded_of_pattern (Session.ready_new book) hc hreach
    refine ⟨?_, hfounded.acyclic⟩
    cases hfounded with
    | intro hdef _ => exact ⟨_, hdef⟩
  · rcases (hrefuses e s he).cases with hlarge | ⟨name, hreach, hfaulty⟩ | ⟨hirregular, -⟩
    · exact hlarge
    · obtain ⟨hacyclic, body, t, hdef, hbody⟩ := hdefs name hreach
      cases hfaulty with
      | cycle hcycle => exact absurd hcycle hacyclic
      | undefined hdef' =>
          rw [hdef] at hdef'
          cases hdef'
      | irregular hdef' hbody' _ =>
          rw [hdef, Option.some.injEq] at hdef'
          subst hdef'
          exact absurd hbody (hbody' t)
    · obtain ⟨t, ht⟩ := hp
      exact absurd ht (hirregular t)

/-- A definition that refers to itself, one that refers to nothing, and one
of two names. -/
def crooked : Rulebook where
  definitions :=
    .ofList [("turn", .sequence [.token "a", .ref "turn"]), ("gap", .optional (.ref "none")),
    ("pair", .sequence [.token "a", .token "b"])]

/-- References to the first two definitions are refused, and one to the third can only
be too large. -/
theorem pattern_references_crooked :
    (∃ e s, (pattern crooked (.ref "turn")).Fails {} e s) ∧
    (∃ e s, (pattern crooked (.ref "gap")).Fails {} e s) ∧
      ∀ e s, (pattern crooked (.ref "pair")).Fails {} e s → e.sort = .limit := by
  have hturn : crooked.definitions.get? "turn" = some (.sequence [.token "a", .ref "turn"]) := by
    decide
  have hgap : crooked.definitions.get? "gap" = some (.optional (.ref "none")) := by decide
  have hpair : crooked.definitions.get? "pair" = some (.sequence [.token "a", .token "b"]) := by
    decide
  refine ⟨?_, ?_, fun e s he => ?_⟩
  · obtain ⟨hends, -, hyields, -⟩ := pattern_references crooked (.ref "turn")
    rcases hends with ⟨c, s, hc⟩ | ⟨e, s, he, -⟩
    · have hcycle : Relation.TransGen crooked.Refers "turn" "turn" := .single ⟨_, hturn, by simp⟩
      exact absurd hcycle (hyields c s hc "turn" ⟨"turn", by simp, .refl⟩).2
    · exact ⟨e, s, he⟩
  · obtain ⟨hends, -, hyields, -⟩ := pattern_references crooked (.ref "gap")
    rcases hends with ⟨c, s, hc⟩ | ⟨e, s, he, -⟩
    · have hreach : crooked.Reaches (.ref "gap") "none" :=
        ⟨"gap", by simp, .single ⟨_, hgap, by simp⟩⟩
      have hnone : crooked.definitions.get? "none" = none := by decide
      obtain ⟨body, hbody⟩ := (hyields c s hc "none" hreach).1
      rw [hnone] at hbody
      cases hbody
    · exact ⟨e, s, he⟩
  · have hpairRefers : ∀ other, ¬ crooked.Refers "pair" other := by
      rintro other ⟨body, hdef, hother⟩
      rw [hpair, Option.some.injEq] at hdef
      subst hdef
      simp at hother
    have hreached : ∀ name, crooked.Reaches (.ref "pair") name → name = "pair" := by
      rintro name ⟨first, hfirst, hreach⟩
      obtain rfl := Pattern.mentions_ref.mp hfirst
      rcases Relation.ReflTransGen.cases_head hreach with rfl | ⟨other, hrefers, -⟩
      · rfl
      · exact absurd hrefers (hpairRefers other)
    have hacyclic : ¬ Relation.TransGen crooked.Refers "pair" "pair" := by
      intro hcycle
      obtain ⟨other, hrefers, -⟩ := Relation.TransGen.head'_iff.mp hcycle
      exact hpairRefers other hrefers
    obtain ⟨-, -, -, hlarge⟩ := pattern_references crooked (.ref "pair")
    obtain ⟨found, -, rfl⟩ :=
      hlarge (fun name hreach => hreached name hreach ▸ ⟨hacyclic, _, _, hpair, rfl⟩) ⟨_, rfl⟩
      e s he
    rfl

end Compiling

end TreeGrammar
