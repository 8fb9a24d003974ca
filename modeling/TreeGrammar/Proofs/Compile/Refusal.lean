/-
Why a compilation fails.

A step that fails says at which place it does, and leaves behind the names of the
definitions in whose midst it was. The reasons for it can be read off the definitions,
without a run: resolving a reference `ResolvingFails` at a name that closes a cycle, is
not defined, or stands for no regular content, or inside the definition; following a
lone reference `Strays` or `ResolvesTo` to the whole content; and a pattern is refused
for one of these, for itself or for its size (`Refuses`). Every step `Ends` in one of
two ways: it yields and goes on at the same place and among the same definitions, or it
fails for such a reason (`ends_resolve`, `ends_pattern`).
-/
import TreeGrammar.Proofs.Compile.Retry
import TreeGrammar.Proofs.Pattern.Mentions

set_option autoImplicit false

namespace TreeGrammar

/-! ## Terms of contents -/

/-- No choice in the term is **without blocks**. -/
inductive Term.Filled : Term → Prop
  | token (x : Token) : Filled (.token x)
  | ref (name : String) : Filled (.ref name)
  | sequence {ts : List Term} (h : ∀ t ∈ ts, Filled t) : Filled (.sequence ts)
  | choice {ts : List Term} (hne : ts ≠ []) (h : ∀ t ∈ ts, Filled t) : Filled (.choice ts)
  | optional {t : Term} (h : Filled t) : Filled (.optional t)
  | kleene {t : Term} (h : Filled t) : Filled (.kleene t)
  | plus {t : Term} (h : Filled t) : Filled (.plus t)

namespace Term

/-- Each of the terms was read from one of the patterns. -/
theorem exists_mem_of_ofPatterns? {ps : List Pattern} {ts : List Term} {t : Term}
    (h : ofPatterns? ps = some ts) (ht : t ∈ ts) : ∃ p ∈ ps, ofPattern? p = some t := by
  induction ps generalizing ts with
  | nil =>
      rw [← Option.some.inj h] at ht
      exact absurd ht List.not_mem_nil
  | cons p ps ih =>
      obtain ⟨u, rest, rfl, hu, hrest⟩ := ofPatterns?_eq_some_cons h
      rcases List.mem_cons.mp ht with rfl | ht
      · exact ⟨p, List.mem_cons_self, hu⟩
      · obtain ⟨q, hq, hqt⟩ := ih hrest ht
        exact ⟨q, List.mem_cons_of_mem p hq, hqt⟩

/-- Normalizing has refused every choice without blocks. So the failure that a choice of
nothing would have cannot come up in a content that was normalized. -/
theorem filled_of_stable {p : Pattern} (hp : p.Stable) :
    ∀ {t : Term}, ofPattern? p = some t → t.Filled := by
  induction hp with
  | token name =>
      rintro t h
      rw [← Option.some.inj h]
      exact .token _
  | ref name =>
      rintro t h
      rw [← Option.some.inj h]
      exact .ref name
  | sequence _ _ _ ih =>
      rintro t h
      obtain ⟨ts, hts, rfl⟩ := Option.map_eq_some_iff.mp h
      refine .sequence fun t ht => ?_
      obtain ⟨p, hp, hpt⟩ := exists_mem_of_ofPatterns? hts ht
      exact ih p hp hpt
  -- a choice without blocks would have been refused by normalizing
  | choice _ _ hgroup ih =>
      rintro t h
      obtain ⟨ts, hts, rfl⟩ := Option.map_eq_some_iff.mp h
      refine .choice ?_ fun t ht => ?_
      · rintro rfl
        rw [eq_nil_of_ofPatterns? hts] at hgroup
        cases hgroup
      · obtain ⟨p, hp, hpt⟩ := exists_mem_of_ofPatterns? hts ht
        exact ih p hp hpt
  | interleave _ _ _ _ =>
      rintro t h
      cases h
  | optional _ _ ih =>
      rintro t h
      obtain ⟨u, hu, rfl⟩ := Option.map_eq_some_iff.mp h
      exact .optional (ih hu)
  | kleene _ _ ih =>
      rintro t h
      obtain ⟨u, hu, rfl⟩ := Option.map_eq_some_iff.mp h
      exact .kleene (ih hu)
  | plus _ _ ih =>
      rintro t h
      obtain ⟨u, hu, rfl⟩ := Option.map_eq_some_iff.mp h
      exact .plus (ih hu)

end Term

/-- The terms of a content are **filled**. The compiler's own failures are thereby out
of the way, and those of references remain. -/
theorem Content.filled_of_mem_terms {limits : Limits} {p : Pattern} {c : Content} {t : Term}
    (h : ofPattern limits p = .ok c) (ht : t ∈ c.terms) : t.Filled := by
  obtain ⟨q, hq, -, hreads⟩ := ofPattern_eq_ok_iff.mp h
  have hstable := Pattern.stable_normalize p q hq
  unfold read? at hreads
  split at hreads
  · obtain ⟨ts, hts, rfl⟩ := Option.map_eq_some_iff.mp hreads
    obtain ⟨b, hb, hbt⟩ := Term.exists_mem_of_ofPatterns? hts ht
    exact Term.filled_of_stable ((Pattern.stable_iff.mp hstable).1 b hb) hbt
  · obtain ⟨u, hu, rfl⟩ := Option.map_eq_some_iff.mp hreads
    rw [List.mem_singleton.mp ht]
    exact Term.filled_of_stable hstable hu

/-! ## Reasons -/

namespace Rulebook

/-- Resolving the name in the midst of the definitions of the path **fails** with the
failure, and leaves behind the names of those in whose midst it does. -/
inductive ResolvingFails (book : Rulebook) (place : Option String) :
    List String → String → Failure → List String → Prop
  | cycle {path : List String} {name : String} (hpath : name ∈ path) :
      ResolvingFails book place path name
        (.compile { cause := .referenceCycle path name, location := place }) path
  | undefined {path : List String} {name : String} (hdef : book.definitions.get? name = none) :
      ResolvingFails book place path name
        (.compile { cause := .undefinedReference name, location := place }) path
  | unread {path : List String} {name : String} {body : Pattern} {e : Failure} (hpath : name ∉ path)
      (hdef : book.definitions.get? name = some body)
      (h : Content.ofPattern book.limits body = .error e) :
      ResolvingFails book place path name e (path ++ [name])
  | interleave {path : List String} {name : String} {body : Pattern} {ts : List Term}
      (hpath : name ∉ path) (hdef : book.definitions.get? name = some body)
      (h : Content.ofPattern book.limits body = .ok (.interleave ts)) :
      ResolvingFails book place path name
        (.compile { cause := .interleaveDefinition name, location := place }) (path ++ [name])
  | inside {path left : List String} {name other : String} {t : Term} {e : Failure}
      (hpath : name ∉ path) (hdef : book.Defines name t) (hother : other ∈ t.names)
      (h : ResolvingFails book place (path ++ [name]) other e left) :
      ResolvingFails book place path name e left

/-- A lone reference **resolves to** the whole content that following it comes to. -/
inductive ResolvesTo (book : Rulebook) : String → Pattern → Prop
  | interleave {name : String} {body : Pattern} {parts : List Pattern}
      (hdef : book.definitions.get? name = some body)
      (h : body.normalize = .ok (.interleave parts)) : ResolvesTo book name (.interleave parts)
  | regular {name : String} {body normal : Pattern} (hdef : book.definitions.get? name = some body)
      (h : body.normalize = .ok normal) (href : ∀ other, normal ≠ .ref other)
      (hinterleave : ∀ parts, normal ≠ .interleave parts) : ResolvesTo book name (.ref name)
  | next {name other : String} {body whole : Pattern}
      (hdef : book.definitions.get? name = some body) (hnext : body.normalize = .ok (.ref other))
      (h : ResolvesTo book other whole) : ResolvesTo book name whole

/-- Following a lone reference, after those that have been followed, **strays**
for the cause. -/
inductive Strays (book : Rulebook) : List String → String → CompileCause → Prop
  | cycle {followed : List String} {name : String} (hfollowed : name ∈ followed) :
      Strays book followed name (.referenceCycle followed name)
  | undefined {followed : List String} {name : String} (hdef : book.definitions.get? name = none) :
      Strays book followed name (.undefinedReference name)
  | unnormal {followed : List String} {name : String} {body : Pattern} {cause : CompileCause}
      (hdef : book.definitions.get? name = some body) (h : body.normalize = .error cause) :
      Strays book followed name cause
  | next {followed : List String} {name other : String} {body : Pattern} {cause : CompileCause}
      (hdef : book.definitions.get? name = some body) (hnext : body.normalize = .ok (.ref other))
      (h : Strays book (followed ++ [name]) other cause) : Strays book followed name cause

/-- What the pattern stands for **as a whole content**: its normal form, or what this
leads to. -/
inductive Whole (book : Rulebook) (p : Pattern) : Pattern → Prop
  | self {normal : Pattern} (h : p.normalize = .ok normal) (href : ∀ name, normal ≠ .ref name) :
      Whole book p normal
  | resolves {name : String} {whole : Pattern} (hnormal : p.normalize = .ok (.ref name))
      (h : book.ResolvesTo name whole) : Whole book p whole

/-- The pattern stands for **no whole content**, for the cause. -/
inductive Misses (book : Rulebook) (p : Pattern) : CompileCause → Prop
  | unnormal {cause : CompileCause} (h : p.normalize = .error cause) : Misses book p cause
  | strays {name : String} {cause : CompileCause} (hnormal : p.normalize = .ok (.ref name))
      (h : book.Strays [] name cause) : Misses book p cause

/-- The failure says that a table has **more states than the bound**. -/
def TooLarge (book : Rulebook) (e : Failure) : Prop :=
  ∃ found, book.limits.automatonStates < found ∧
    e = .limit ⟨.automatonStates, found, book.limits.automatonStates⟩

/-- Compiling the pattern at the place is **refused** with the failure, and leaves
behind the names of the definitions in whose midst it is. -/
inductive Refuses (book : Rulebook) (place : Option String) (p : Pattern) :
    Failure → List String → Prop
  | misses {cause : CompileCause} (h : book.Misses p cause) :
      Refuses book place p (.compile { cause, location := place }) []
  | unread {whole : Pattern} {e : Failure} (hwhole : book.Whole p whole)
      (h : Content.ofPattern book.limits whole = .error e) : Refuses book place p e []
  | resolvingFails {whole : Pattern} {c : Content} {name : String} {e : Failure}
      {left : List String} (hwhole : book.Whole p whole)
      (hc : Content.ofPattern book.limits whole = .ok c) (hname : name ∈ Term.namesAll c.terms)
      (h : book.ResolvingFails place [] name e left) : Refuses book place p e left
  | tooLarge {e : Failure} (h : book.TooLarge e) : Refuses book place p e []

variable {book : Rulebook} {p whole : Pattern} {name : String}

/-- What lone references resolve to has been normalized. -/
theorem ResolvesTo.stable (h : book.ResolvesTo name whole) : whole.Stable := by
  induction h with
  | interleave _ h => exact Pattern.stable_normalize _ _ h
  | regular => exact .ref _
  | next _ _ _ ih => exact ih

/-- So the whole content of a pattern is stable, whether or not references
were followed. -/
theorem Whole.stable (h : book.Whole p whole) : whole.Stable := by
  cases h with
  | self h _ => exact Pattern.stable_normalize _ _ h
  | resolves _ h => exact h.stable

end Rulebook

/-! ## Two ways to end -/

/-- The session is **at the place**, in the midst of the definitions of the path. -/
structure Session.At (place : Option String) (path : List String) (s : Session) : Prop where
  location_eq : s.location = place
  inProgress_eq : s.inProgress = path

namespace Compiling

variable {α β : Type} {place : Option String} {path : List String}
  {F G : Failure → List String → Prop} {m : Compiling α} {book : Rulebook} {s : Session}
  {t : Term} {ts : List Term} {name : String}

/-- At the place, in the midst of the definitions, the step **ends in one of two ways**:
it yields and is there still, or it fails as it may. -/
def Ends (place : Option String) (path : List String) (m : Compiling α)
    (F : Failure → List String → Prop) : Prop :=
  ∀ s, s.At place path →
    (∃ x s', m.Yields s x s' ∧ s'.At place path) ∨ ∃ e s', m.Fails s e s' ∧ F e s'.inProgress

/-- A step that ends in one of two ways still does so when more failures are allowed.
The failures of parts are collected in the failures of the whole in this way. -/
theorem Ends.mono (h : Ends place path m F) (hFG : ∀ e left, F e left → G e left) :
    Ends place path m G := by
  intro s hs
  rcases h s hs with hyields | ⟨e, s', hfails, he⟩
  · exact .inl hyields
  · exact .inr ⟨e, s', hfails, hFG e _ he⟩

theorem ends_pure (x : α) : Ends place path (pure x) F :=
  fun s hs => .inl ⟨x, s, yields_pure.mpr ⟨rfl, rfl⟩, hs⟩

/-- One step after another ends well **if both do**; otherwise it ends with the failure
of the first that does not, and with the names that it left. -/
theorem Ends.bind {f : α → Compiling β} (h : Ends place path m F)
    (hf : ∀ x, Ends place path (f x) F) : Ends place path (m >>= f) F := by
  intro s hs
  rcases h s hs with ⟨x, s₁, hx, hs₁⟩ | ⟨e, s', hfails, he⟩
  · rcases hf x s₁ hs₁ with ⟨y, s', hy, hs'⟩ | ⟨e, s', hfails, he⟩
    · exact .inl ⟨y, s', yields_bind.mpr ⟨x, s₁, hx, hy⟩, hs'⟩
    · exact .inr ⟨e, s', hx.fails_bind hfails, he⟩
  · exact .inr ⟨e, s', hfails.bind f, he⟩

theorem ends_build (f : Nat → Built) : Ends place path (build f) F :=
  fun _ hs => .inl ⟨_, _, yields_build.mpr ⟨rfl, rfl⟩, hs.location_eq, hs.inProgress_eq⟩

/-- A failure that is raised here leaves the names that are in progress here. -/
theorem ends_failHere {cause : CompileCause} (h : F (.compile { cause, location := place }) path) :
    Ends place path (failHere cause : Compiling α) F := by
  intro s hs
  refine .inr ⟨_, s, fails_failHere cause s, ?_⟩
  rwa [hs.location_eq, hs.inProgress_eq]

/-- An error that is passed on leaves them as well. -/
theorem ends_error {e : Failure} (h : F e path) :
    Ends place path (ofExcept (.error e) : Compiling α) F :=
  fun s hs => .inr ⟨e, s, fails_ofExcept e s, hs.inProgress_eq ▸ h⟩

theorem ends_error_bind {e : Failure} (h : F e path) (f : α → Compiling β) :
    Ends place path (ofExcept (.error e) >>= f) F :=
  fun s hs => .inr ⟨e, s, (fails_ofExcept e s).bind f, hs.inProgress_eq ▸ h⟩

/-! ## Terms -/

/-- Blocks end as **the first that does not yield**. By induction on the blocks, with
the table so far as the state of the loop. -/
theorem ends_loop {resolve : String → Compiling Automaton} {group : List Term → Term}
    {loop : Automaton → List Term → Compiling Automaton} {put : Nat → Automaton → Automaton → Built}
    (hloop : BlockLoop resolve group loop put)
    (hblocks : ∀ t ∈ ts, Ends place path (term resolve t) F) (before : Automaton) :
    Ends place path (loop before ts) F := by
  induction ts generalizing before with
  | nil =>
      rw [hloop.nil]
      exact ends_pure before
  | cons t ts ih =>
      rw [List.forall_mem_cons] at hblocks
      rw [hloop.cons]
      exact hblocks.1.bind fun b => (ends_build _).bind fun both => ih hblocks.2 both

/-- A term of a content fails only **where one of its references does**. By induction on
the term. Every name in it is either resolved or leads to the failure of the whole. -/
theorem ends_term {resolve : String → Compiling Automaton} (ht : t.Filled)
    (hresolve : ∀ name ∈ t.names, Ends place path (resolve name) F) :
    Ends place path (term resolve t) F := by
  -- a filled term has no empty choice, which is the one failure that a term could add
  induction ht with
  | token x =>
      rw [term]
      exact ends_pure _
  | ref name =>
      rw [term]
      exact hresolve name (List.mem_singleton_self name)
  | @sequence ts _ ih =>
      have hblocks : ∀ t ∈ ts, Ends place path (term resolve t) F := fun t ht =>
        ih t ht fun name hname => hresolve name (Term.mem_namesAll_iff.mpr ⟨t, ht, hname⟩)
      cases ts with
      | nil =>
          rw [term]
          exact ends_pure _
      | cons block rest =>
          rw [List.forall_mem_cons] at hblocks
          rw [(blockLoop_sequence resolve).first]
          exact hblocks.1.bind fun first => ends_loop (blockLoop_sequence resolve) hblocks.2 first
  | @choice ts hne _ ih =>
      have hblocks : ∀ t ∈ ts, Ends place path (term resolve t) F := fun t ht =>
        ih t ht fun name hname => hresolve name (Term.mem_namesAll_iff.mpr ⟨t, ht, hname⟩)
      cases ts with
      | nil => exact absurd rfl hne
      | cons block rest =>
          rw [List.forall_mem_cons] at hblocks
          rw [(blockLoop_choice resolve).first]
          exact hblocks.1.bind fun first => ends_loop (blockLoop_choice resolve) hblocks.2 first
  | optional _ ih =>
      rw [term]
      exact (ih hresolve).bind fun a => ends_pure _
  | kleene _ ih =>
      rw [term]
      exact (ih hresolve).bind fun a => ends_build _
  | plus _ ih =>
      rw [term]
      exact (ih hresolve).bind fun a => ends_build _

/-! ## References -/

/-- Inside a definition the step yields, and is in its midst no longer, or it
**fails**. Its own name is taken off the path on success only; where it fails the name
stays behind. -/
theorem ends_inside {body : Pattern} (hpath : name ∉ path)
    (hdef : book.definitions.get? name = some body) (hresolve : ∀ other,
      Ends place (path ++ [name]) (resolve book (path ++ [name]) other)
        (book.ResolvingFails place (path ++ [name]) other))
    (hs : s.At place (path ++ [name])) :
    (∃ a s', (inside book path name body).Yields s a s' ∧ s'.At place path) ∨
      ∃ e s', (inside book path name body).Fails s e s' ∧
        book.ResolvingFails place path name e s'.inProgress := by
  rw [inside]
  cases hcontent : Content.ofPattern book.limits body with
  | error e =>
      refine .inr ⟨e, s, (fails_ofExcept e s).bind _, ?_⟩
      rw [hs.inProgress_eq]
      exact .unread hpath hdef hcontent
  | ok c =>
    rw [ofExcept, pure_bind]
    cases c with
    | interleave ts =>
        refine .inr ⟨_, s, fails_failHere _ s, ?_⟩
        rw [hs.location_eq, hs.inProgress_eq]
        exact .interleave hpath hdef hcontent
    | term t =>
        have hterm := ends_term (Content.filled_of_mem_terms hcontent (List.mem_singleton_self t))
          (fun other hother => (hresolve other).mono fun e left hfailing =>
            Rulebook.ResolvingFails.inside hpath ⟨body, hdef, hcontent⟩ hother hfailing)
        -- a definition that fails keeps its name in progress, so the failure is one
        -- inside of it
        rcases hterm s hs with ⟨a, s₁, ha, hs₁⟩ | ⟨e, s', hfails, hfailing⟩
        · refine .inl ⟨a, { s₁ with inProgress := path, finished := s₁.finished.insert name a },
            yields_bind.mpr ⟨a, s₁, ha, ?_⟩, hs₁.location_eq, rfl⟩
          exact yields_bind.mpr ⟨⟨⟩, _, yields_modify.mpr rfl, yields_pure.mpr ⟨rfl, rfl⟩⟩
        · exact .inr ⟨e, s', hfails.bind _, hfailing⟩

/-- A reference yields, or **fails** for a reason of the definitions. The induction is
that of `resolve`: on the definitions that are not being compiled. -/
theorem ends_resolve (book : Rulebook) (place : Option String) (path : List String)
    (name : String) : Ends place path (resolve book path name)
    (book.ResolvingFails place path name) := by
  induction hn : unseen book.definitions.keys path using Nat.strong_induction_on
    generalizing path name with
  | _ n ih =>
    intro s hs
    cases hfinished : s.finished.get? name with
    | some kept =>
        exact .inl ⟨_, _, (yields_resolve_of_kept hfinished).mpr ⟨rfl, rfl⟩, hs.location_eq,
          hs.inProgress_eq⟩
    | none =>
        by_cases hpath : name ∈ path
        · refine .inr ⟨_, s, fails_resolve_of_mem hfinished hpath, ?_⟩
          rw [hs.location_eq, hs.inProgress_eq]
          exact .cycle hpath
        cases hdef : book.definitions.get? name with
        | none =>
            refine .inr ⟨_, s, fails_resolve_of_undefined hfinished hpath hdef, ?_⟩
            rw [hs.location_eq, hs.inProgress_eq]
            exact .undefined hdef
        | some body =>
            -- inside the definition its name is in progress, and fewer names are left
            have hless : unseen book.definitions.keys (path ++ [name]) < n := by
              rw [← hn]
              exact unseen_append_lt hdef hpath
            simp only [Yields, Fails, run_resolve_of_new hfinished hpath hdef]
            exact ends_inside hpath hdef (fun other => ih _ hless (path ++ [name]) other rfl)
              ⟨hs.location_eq, rfl⟩

/-! ## Contents -/

/-- The check of the size refuses a table that is too large, and leaves the path
as it is. By then the table has been compiled, and nothing is in progress that was
not before. -/
theorem ends_check (book : Rulebook) (n : Nat) :
    Ends place path (ofExcept ((book.limits.check .automatonStates n).mapError .limit))
      fun e left =>
      book.TooLarge e ∧ left = path := by
  unfold Limits.check
  split
  · next hlt => exact ends_error ⟨⟨n, hlt, rfl⟩, rfl⟩
  · exact ends_pure _

/-- Why a content fails whose references have the names: resolving one of them
**fails**, or a table is too large. -/
def FailsFor (book : Rulebook) (place : Option String) (names : List String) (e : Failure)
    (left : List String) : Prop :=
  (∃ name ∈ names, book.ResolvingFails place [] name e left) ∨ book.TooLarge e ∧ left = []

/-- A failure for some names is one for more of them. -/
theorem FailsFor.mono {names names' : List String} {e : Failure} {left : List String}
    (h : FailsFor book place names e left) (hsubset : names ⊆ names') :
    FailsFor book place names' e left :=
  h.imp_left fun ⟨name, hname, hfailing⟩ => ⟨name, hsubset hname, hfailing⟩

/-- A bounded term compiles, or fails for one of its names or for its size. What comes
of a name is said once, where references are resolved. -/
theorem ends_boundedTerm (ht : t.Filled) :
    Ends place [] (boundedTerm book t) (FailsFor book place t.names) := by
  intro s hs
  have hterm : Ends place [] (term (resolve book []) t) (FailsFor book place t.names) :=
    ends_term ht fun name hname => (ends_resolve book place [] name).mono fun e left h => .inl
      ⟨name, hname, h⟩
  -- the rest of the step, once the definitions being compiled are known to be none
  have hbounded := hterm.bind fun a => ((ends_check book a.stateCount).mono fun e left h =>
    (.inr h : FailsFor book place t.names e left)).bind fun _ => ends_pure a
  rw [boundedTerm]
  have hget : (getThe Session : Compiling Session).Yields s s s := yields_get.mpr ⟨rfl, rfl⟩
  rcases hbounded s hs with ⟨a, s', ha, hs'⟩ | ⟨e, s', hfails, he⟩
  · refine .inl ⟨a, s', yields_bind.mpr ⟨s, s, hget, ?_⟩, hs'⟩
    rw [hs.inProgress_eq]
    exact ha
  · refine .inr ⟨e, s', hget.fails_bind ?_, he⟩
    rw [hs.inProgress_eq]
    exact hfails

/-- So blocks compile one after the other, or fail for the names of one of them. -/
theorem ends_blocks (hts : ∀ t ∈ ts, t.Filled) :
    Ends place [] (blocks book ts) (FailsFor book place (Term.namesAll ts)) := by
  induction ts with
  | nil =>
      rw [blocks]
      exact ends_pure _
  | cons t ts ih =>
      rw [List.forall_mem_cons] at hts
      rw [blocks, Term.namesAll]
      exact ((ends_boundedTerm hts.1).mono fun e left h => h.mono
        (List.subset_append_left _ _)).bind fun a =>
        ((ih hts.2).mono fun e left h => h.mono (List.subset_append_right _ _)).bind
          fun as => ends_pure _

theorem ends_content {c : Content} (hc : ∀ t ∈ c.terms, t.Filled) :
    Ends place [] (content book c) (FailsFor book place (Term.namesAll c.terms)) := by
  cases c with
  | term t =>
      rw [content, Content.terms, Term.namesAll, Term.namesAll, List.append_nil]
      exact (ends_boundedTerm (hc t (List.mem_singleton_self t))).bind fun a => ends_pure _
  | interleave ts =>
      rw [content]
      exact (ends_blocks hc).bind fun as => ends_pure _

/-! ## Patterns -/

/-- A lone reference **resolves to its whole content, or strays**. By induction on the
definitions that have not been followed yet. -/
theorem wholeContent_ref (book : Rulebook) (followed : List String) (name : String) :
    (∃ whole, book.ResolvesTo name whole ∧ wholeContent book followed (.ref name) = pure whole) ∨
      ∃ cause, book.Strays followed name cause ∧ wholeContent book followed (.ref name) =
        failHere cause := by
  induction hn : unseen book.definitions.keys followed using Nat.strong_induction_on
    generalizing followed name with
  | _ n ih =>
    rw [wholeContent]
    split
    · next hfollowed => exact .inr ⟨_, .cycle hfollowed, rfl⟩
    · next hfollowed =>
      split
      · next hdef => exact .inr ⟨_, .undefined hdef, rfl⟩
      · next body hdef =>
        cases hnormal : body.normalize with
        | error cause => exact .inr ⟨cause, .unnormal hdef hnormal, rfl⟩
        | ok normal =>
            rw [orFailHere, pure_bind]
            split
            · next other =>
              -- one definition more has been followed, so the rest of the way is shorter
              have hless : unseen book.definitions.keys (followed ++ [name]) < n := by
                rw [← hn]
                exact unseen_append_lt hdef hfollowed
              rcases ih _ hless (followed ++ [name]) other
                rfl with ⟨whole, hresolves, h⟩ | ⟨cause, hstrays, h⟩
              · exact .inl ⟨whole, .next hdef hnormal hresolves, h⟩
              · exact .inr ⟨cause, .next hdef hnormal hstrays, h⟩
            · next parts => exact .inl ⟨_, .interleave hdef hnormal, rfl⟩
            · next href hinterleave => exact .inl ⟨_, .regular hdef hnormal href hinterleave, rfl⟩

/-- A pattern is compiled **as its whole content**, if it stands for one. Otherwise it
fails before anything of it is compiled. -/
theorem pattern_eq (book : Rulebook) (p : Pattern) :
    (∃ whole, book.Whole p whole ∧
      pattern book p = ofExcept (Content.ofPattern book.limits whole) >>= content book) ∨
    ∃ cause, book.Misses p cause ∧ pattern book p = failHere cause := by
  rw [pattern]
  cases hnormal : p.normalize with
  | error cause => exact .inr ⟨cause, .unnormal hnormal, rfl⟩
  | ok normal =>
      rw [orFailHere, pure_bind]
      by_cases href : ∃ name, normal = .ref name
      · obtain ⟨name, rfl⟩ := href
        rcases wholeContent_ref book [] name with ⟨whole, hresolves, h⟩ | ⟨cause, hstrays, h⟩
        · exact .inl ⟨whole, .resolves hnormal hresolves, by rw [h, pure_bind]⟩
        · exact .inr ⟨cause, .strays hnormal hstrays, by rw [h]; rfl⟩
      · rw [not_exists] at href
        refine .inl ⟨normal, .self hnormal href, ?_⟩
        rw [wholeContent_of_ne href, pure_bind]

/-- A pattern is compiled or **refused**. This is the full list of outcomes, from which
each way of being refused is read off. -/
theorem ends_pattern (book : Rulebook) (place : Option String) (p : Pattern) :
    Ends place [] (pattern book p) (book.Refuses place p) := by
  rcases pattern_eq book p with ⟨whole, hwhole, h⟩ | ⟨cause, hmisses, h⟩
  · rw [h]
    cases hcontent : Content.ofPattern book.limits whole with
    | error e => exact ends_error_bind (.unread hwhole hcontent) _
    | ok c =>
        rw [ofExcept, pure_bind]
        refine (ends_content fun t => Content.filled_of_mem_terms hcontent).mono ?_
        rintro e left (⟨name, hname, hfailing⟩ | ⟨hlarge, rfl⟩)
        · exact .resolvingFails hwhole hcontent hname hfailing
        · exact .tooLarge hlarge
  · rw [h]
    exact ends_failHere (.misses hmisses)

end Compiling

end TreeGrammar
