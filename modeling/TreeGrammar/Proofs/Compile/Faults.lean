/-
Steps of a compilation that fail.

A failed step leaves its session as it was when the failure came up, with the names of
the definitions around it still among those being compiled. Such a session is **usable**
all the same: what it has finished is grounded, and none of the names that it is stuck
at is. In every usable session that is stuck at the same names a grounded term yields
(`yieldsAt_term`), and a step that meets a fault meets the same sort of fault inside the
same chain of definitions (`FaultsAt`), which is then among the names that the session
is stuck at.
-/
import TreeGrammar.Proofs.Compile.Rerun

set_option autoImplicit false

namespace TreeGrammar

open Automaton

/-! ## Sorts of failures -/

/-- What a caller tells failures apart by: which operation failed and, where a grammar
does not compile, which kind of construct is to blame. -/
inductive FailureSort where
  | compile (kind : CompileKind)
  | decode
  | name
  | limit
  | file
  | markup
  | json
  | other
deriving DecidableEq, Repr

/-- The **sort** of a failure. -/
def Failure.sort : Failure → FailureSort
  | .compile error => .compile error.cause.kind
  | .decode _ => .decode
  | .name _ => .name
  | .limit _ => .limit
  | .file _ => .file
  | .markup _ => .markup
  | .json => .json
  | .unknownKind _ => .other
  | .unknownMode _ => .other

namespace Compiling

variable {α β : Type} {s s' : Session} {e : Failure}

/-- From the first session the step **fails** with the failure, and leaves the second
session behind. -/
def Fails (m : Compiling α) (s : Session) (e : Failure) (s' : Session) : Prop :=
  m.run.run s = (.error e, s')

theorem Fails.not_yields {m : Compiling α} (h : m.Fails s e s') (x : α) (s₁ : Session) :
    ¬ m.Yields s x s₁ := by
  intro hx
  rw [Fails, hx, Prod.mk.injEq] at h
  exact absurd h.1 (by simp)

/-- A run fails in one way, since it is a function of the session. So it is enough to
find one failure of a run in order to know it. -/
theorem Fails.unique {m : Compiling α} {e₁ : Failure} {s₁ : Session} (h : m.Fails s e s')
    (h₁ : m.Fails s e₁ s₁) : e = e₁ ∧ s' = s₁ := by
  rw [Fails, h, Prod.mk.injEq, Except.error.injEq] at h₁
  exact h₁

/-- A step fails **where its first part fails**. What comes after is not run. -/
theorem Fails.bind {m : Compiling α} (h : m.Fails s e s') (f : α → Compiling β) :
    (m >>= f).Fails s e s' := by
  have hrun : m.run.run s = (.error e, s') := h
  unfold Fails
  rw [ExceptT.run_bind, StateT.run_bind, hrun]
  rfl

/-- After a first step that yields, **the rest runs from where it ended**. -/
theorem Yields.run_bind {m : Compiling α} {x : α} {s₁ : Session} (h : m.Yields s x s₁)
    (f : α → Compiling β) : (m >>= f).run.run s = (f x).run.run s₁ := by
  have hrun : m.run.run s = (.ok x, s₁) := h
  rw [ExceptT.run_bind, StateT.run_bind, hrun]
  rfl

/-- If the first part yields, the step fails **where the second part does**, in the session
that the first has left. -/
theorem Yields.fails_bind {m : Compiling α} {x : α} {s₁ : Session} {f : α → Compiling β}
    (h : m.Yields s x s₁) (hf : (f x).Fails s₁ e s') : (m >>= f).Fails s e s' :=
  (h.run_bind f).trans hf

/-- A step after another fails where **one of the two** does. If it is the second, it
fails in the session that the first has left. -/
theorem fails_bind {m : Compiling α} {f : α → Compiling β} : (m >>= f).Fails s e s' ↔
    m.Fails s e s' ∨ ∃ x s₁, m.Yields s x s₁ ∧ (f x).Fails s₁ e s' := by
  constructor
  · intro h
    cases hm : m.run.run s with
    | mk r s₁ =>
        cases r with
        | error e' =>
            obtain ⟨rfl, rfl⟩ := Fails.unique (show (m >>= f).Fails s e' s₁ from Fails.bind hm f) h
            exact .inl hm
        | ok x => exact .inr ⟨x, s₁, hm, (Yields.run_bind hm f).symm.trans h⟩
  · rintro (h | ⟨x, s₁, hx, h⟩)
    · exact h.bind f
    · exact hx.fails_bind h

/-- A step that only returns a value **cannot fail**. This closes the branches of a failing
step in which nothing was done. -/
theorem not_fails_pure {x : α} : ¬ (pure x : Compiling α).Fails s e s' :=
  fun h => h.not_yields x s (yields_pure.mpr ⟨rfl, rfl⟩)

theorem not_fails_modify {f : Session → Session} :
    ¬ (modifyThe Session f : Compiling PUnit).Fails s e s' :=
  fun h => h.not_yields ⟨⟩ (f s) (yields_modify.mpr rfl)

/-- A failure that is raised here carries the location of the session. -/
theorem fails_failHere (cause : CompileCause) (s : Session) :
    (failHere cause : Compiling α).Fails s (.compile { cause, location := s.location }) s := rfl

/-- An error that is passed on leaves the session as it was, and gets no location. -/
theorem fails_ofExcept (e : Failure) (s : Session) :
    (ofExcept (.error e) : Compiling α).Fails s e s := rfl

/-- Where a result of another reader is passed on, the failure is **that reader's own**,
location and all. -/
theorem eq_error_of_fails_ofExcept {x : Except Failure α} (h : (ofExcept x).Fails s e s') :
    x = .error e := by
  cases x with
  | error e' => rw [(h.unique (fails_ofExcept e' s)).1]
  | ok y => exact absurd h not_fails_pure

end Compiling

/-! ## Usable sessions -/

variable {book : Rulebook} {path chain : List String} {s s' : Session} {t : Term}
  {name : String} {k : Nat} {σ : FailureSort}

/-- The session **can be used**, stuck at the names of the path as it may be: these
are defined and not grounded, and what it has finished is grounded and has a table
made for it. -/
structure Session.Usable (book : Rulebook) (path : List String) (s : Session) : Prop where
  sound : s.Sound book.definitions
  groundedAt : s.GroundedAt book path
  defined : ∀ name ∈ path, ∃ body, book.definitions.get? name = some body
  ungrounded : ∀ name ∈ path, ∀ k, ¬ (Term.ref name).Grounded book k

namespace Session

/-- A new session **can be used**: nothing is finished, and it is stuck at no name. -/
theorem usable_new (book : Rulebook) : Session.Usable book [] {} :=
  ⟨sound_new book.definitions, (ready_new book).groundedAt, fun _ h => absurd h List.not_mem_nil,
    fun _ h => absurd h List.not_mem_nil⟩

/-- The location does not matter to what can be compiled. -/
theorem Usable.located (h : s.Usable book path) (location : Option String) :
    Session.Usable book path { s with location := location } :=
  ⟨h.sound, ⟨h.groundedAt.inProgress_eq, h.groundedAt.grounded⟩, h.defined, h.ungrounded⟩

/-- What is not grounded **has not been finished**. Only tables of grounded definitions
are kept in a session that is in order. -/
theorem Usable.get?_finished (h : s.Usable book path)
    (hname : ∀ k, ¬ (Term.ref name).Grounded book k) : s.finished.get? name = none := by
  cases hkept : s.finished.get? name with
  | none => rfl
  | some a =>
      obtain ⟨k, hk⟩ := h.groundedAt.grounded name a hkept
      exact absurd hk (hname k)

/-- The session inside a definition that is not grounded. It is the same session with
one more name in progress. -/
theorem Usable.inside (h : s.Usable book path) {body : Pattern}
    (hdef : book.definitions.get? name = some body)
    (hname : ∀ k, ¬ (Term.ref name).Grounded book k) :
    Session.Usable book (path ++ [name]) { s with inProgress := path ++ [name] } where
  sound := h.sound
  groundedAt := ⟨rfl, h.groundedAt.grounded⟩
  defined other hother := by
    rcases List.mem_append.mp hother with hother | hother
    · exact h.defined other hother
    · rw [List.mem_singleton.mp hother]
      exact ⟨body, hdef⟩
  ungrounded other hother := by
    rcases List.mem_append.mp hother with hother | hother
    · exact h.ungrounded other hother
    · rw [List.mem_singleton.mp hother]
      exact hname

/-- A table that is built leaves the session usable, since building **only draws
numbers** and adds warnings. -/
theorem Usable.afterBuild (h : s.Usable book path) {b : Built} (hb : s.drawn ≤ b.drawn) :
    Session.Usable book path (Compiling.afterBuild s b) :=
  ⟨h.sound.mono rfl (loses_afterBuild s b hb), (Precedes.afterBuild s hb).groundedAt path
    h.groundedAt, h.defined, h.ungrounded⟩

end Session

namespace Compiling

variable {α β : Type}

/-- In every session that is stuck at the names of the path the step **yields**, and
leaves the session usable. -/
def YieldsAt (book : Rulebook) (path : List String) (m : Compiling α) : Prop :=
  ∀ s, s.Usable book path → ∃ x s', m.Yields s x s' ∧ s'.Usable book path

/-- In every session that is stuck at the names of the path the step fails with a
failure of the sort, **inside the chain** of definitions, at which the session is stuck
then too. -/
def FaultsAt (book : Rulebook) (path : List String) (m : Compiling α) (σ : FailureSort)
    (chain : List String) : Prop :=
  ∀ s, s.Usable book path → ∃ e s', m.Fails s e s' ∧ e.sort = σ ∧ s'.Usable book (path ++ chain)

/-- A result that is there already is yielded everywhere. -/
theorem yieldsAt_pure (x : α) : YieldsAt book path (pure x) :=
  fun s hs => ⟨x, s, yields_pure.mpr ⟨rfl, rfl⟩, hs⟩

/-- Two steps that yield at a place yield one after the other: the first leaves the
session usable. A session stays usable while it grows, whatever numbers are drawn
in it. -/
theorem YieldsAt.bind {m : Compiling α} {f : α → Compiling β} (h : YieldsAt book path m)
    (hf : ∀ x, YieldsAt book path (f x)) : YieldsAt book path (m >>= f) := by
  intro s hs
  obtain ⟨x, s₁, hx, hs₁⟩ := h s hs
  obtain ⟨y, s', hy, hs'⟩ := hf x s₁ hs₁
  exact ⟨y, s', yields_bind.mpr ⟨x, s₁, hx, hy⟩, hs'⟩

theorem yieldsAt_build {f : Nat → Built} (h : ∀ n, n ≤ (f n).drawn) :
    YieldsAt book path (build f) :=
  fun s hs => ⟨_, _, yields_build.mpr ⟨rfl, rfl⟩, hs.afterBuild (h s.drawn)⟩

/-- A failure raised at a place is of the sort of its cause, and has no chain of names
behind it. -/
theorem faultsAt_failHere (cause : CompileCause) :
    FaultsAt book path (failHere cause : Compiling α) (.compile cause.kind) [] := by
  intro s hs
  refine ⟨_, s, fails_failHere cause s, rfl, ?_⟩
  rwa [List.append_nil]

theorem faultsAt_ofExcept (e : Failure) :
    FaultsAt book path (ofExcept (.error e) : Compiling α) e.sort [] := by
  intro s hs
  refine ⟨e, s, fails_ofExcept e s, rfl, ?_⟩
  rwa [List.append_nil]

theorem FaultsAt.bind {m : Compiling α} (h : FaultsAt book path m σ chain) (f : α → Compiling β) :
    FaultsAt book path (m >>= f) σ chain := by
  intro s hs
  obtain ⟨e, s', hfails, hsort, hs'⟩ := h s hs
  exact ⟨e, s', hfails.bind f, hsort, hs'⟩

/-- A fault of the second part is a fault of the whole, if the first part **yields in every
usable session**. -/
theorem YieldsAt.faultsAt_bind {m : Compiling α} {f : α → Compiling β} (h : YieldsAt book path m)
    (hf : ∀ x, FaultsAt book path (f x) σ chain) : FaultsAt book path (m >>= f) σ chain := by
  intro s hs
  obtain ⟨x, s₁, hx, hs₁⟩ := h s hs
  obtain ⟨e, s', hfails, hsort, hs'⟩ := hf x s₁ hs₁
  exact ⟨e, s', hx.fails_bind hfails, hsort, hs'⟩

/-! ## Terms -/

/-- A grounded term **yields** wherever a session is stuck. Grounded terms need nothing
that is in progress, so no place gets in their way. -/
theorem yieldsAt_term (h : t.Grounded book k) :
    YieldsAt book path (term (resolve book path) t) := by
  intro s hs
  have hresolve : ∀ name, (Term.ref name).Grounded book k →
      ∀ s, ∃ a s', (resolve book path name).Yields s a s' :=
    fun name hname s => exists_yields_resolve hname
      (fun other hother => hs.ungrounded other hother k) s
  obtain ⟨a, s', ha⟩ := exists_yields_term hresolve h s
  obtain ⟨r, cs, hdelivers⟩ :=
    delivers_term (fun name => delivers_resolve book path name) t s a s' hs.sound ha
  obtain ⟨hprecedes, -, -⟩ := settles_term (settles_resolve book path) t s a s' hs.groundedAt ha
  exact ⟨a, s', ha, hdelivers.sound, hprecedes.groundedAt path hs.groundedAt,
    hs.defined, hs.ungrounded⟩

section

variable {resolve : String → Compiling Automaton} {group : List Term → Term}
  {loop : Automaton → List Term → Compiling Automaton}
  {put : Nat → Automaton → Automaton → Built} {done rest : List Term}

/-- Blocks that are compiled one by one meet the fault of **the first block that has
one**. By induction on the blocks: those before it yield a table each, and the loop
carries on. -/
theorem faultsAt_blocks (hloop : BlockLoop resolve group loop put)
    (hput : ∀ n a b, n ≤ (put n a b).drawn)
    (hdone : ∀ b ∈ done, YieldsAt book path (term resolve b))
    (h : FaultsAt book path (term resolve t) σ chain) (before : Automaton) :
    FaultsAt book path (loop before (done ++ t :: rest)) σ chain := by
  induction done generalizing before with
  | nil =>
      rw [List.nil_append, hloop.cons]
      exact h.bind _
  | cons b done ih =>
      rw [List.forall_mem_cons] at hdone
      rw [List.cons_append, hloop.cons]
      refine hdone.1.faultsAt_bind fun a => ?_
      refine (yieldsAt_build fun n => hput n before a).faultsAt_bind fun both => ?_
      exact ih hdone.2 both

/-- So does the group of the blocks. -/
theorem faultsAt_group (hloop : BlockLoop resolve group loop put)
    (hput : ∀ n a b, n ≤ (put n a b).drawn)
    (hdone : ∀ b ∈ done, YieldsAt book path (term resolve b))
    (h : FaultsAt book path (term resolve t) σ chain) :
    FaultsAt book path (term resolve (group (done ++ t :: rest))) σ chain := by
  cases done with
  | nil =>
      rw [List.nil_append, hloop.first]
      exact h.bind _
  | cons b done =>
      rw [List.forall_mem_cons] at hdone
      rw [List.cons_append, hloop.first]
      exact hdone.1.faultsAt_bind fun first => faultsAt_blocks hloop hput hdone.2 h first

/-- A sequence fails as **its first failing block** does: the blocks before it yield. -/
theorem faultsAt_sequence (hdone : ∀ b ∈ done, YieldsAt book path (term resolve b))
    (h : FaultsAt book path (term resolve t) σ chain) :
    FaultsAt book path (term resolve (.sequence (done ++ t :: rest))) σ chain :=
  faultsAt_group (blockLoop_sequence resolve)
    (fun _ _ _ => Nat.le_of_lt (lt_drawn_append _ _ _)) hdone h

/-- A choice meets the fault of **its first faulty term**: what comes before it yields, and
what comes after is not reached. -/
theorem faultsAt_choice (hdone : ∀ b ∈ done, YieldsAt book path (term resolve b))
    (h : FaultsAt book path (term resolve t) σ chain) :
    FaultsAt book path (term resolve (.choice (done ++ t :: rest))) σ chain :=
  faultsAt_group (blockLoop_choice resolve) (fun _ _ _ => le_drawn_merge _ _ _) hdone h

end

/-! ## References -/

/-- The step that compiles a definition, **once its name is among those
being compiled**. -/
def inside (book : Rulebook) (path : List String) (name : String) (body : Pattern) :
    Compiling Automaton := do
  match ← ofExcept (Content.ofPattern book.limits body) with
  | .interleave _ => failHere (.interleaveDefinition name)
  | .term t =>
      let a ← term (resolve book (path ++ [name])) t
      modifyThe Session fun s => { s with inProgress := path, finished := s.finished.insert name a }
      return a

/-- A definition that is neither finished nor in progress is compiled inside its own
reference, with its name on the path. -/
theorem run_resolve_of_new {body : Pattern} (hfinished : s.finished.get? name = none)
    (hpath : name ∉ path) (hdef : book.definitions.get? name = some body) :
    (resolve book path name).run.run s =
      (inside book path name body).run.run { s with inProgress := path ++ [name] } := by
  rw [resolve, (yields_get.mpr ⟨rfl, rfl⟩).run_bind]
  simp only [hfinished]
  rw [dif_neg hpath]
  split
  · next hnone =>
    rw [hdef] at hnone
    cases hnone
  · next body' hbody =>
    rw [hdef, Option.some.injEq] at hbody
    subst hbody
    exact Yields.run_bind (x := ⟨⟩) (yields_modify.mpr rfl) _

/-- A name among those being compiled that is not finished **closes a cycle**. The
check comes before the definitions are consulted, so it does not matter whether the
name has one. -/
theorem fails_resolve_of_mem (hfinished : s.finished.get? name = none) (hpath : name ∈ path) :
    (resolve book path name).Fails s
      (.compile { cause := .referenceCycle path name, location := s.location }) s := by
  rw [resolve]
  refine (yields_get.mpr ⟨rfl, rfl⟩).fails_bind ?_
  simp only [hfinished]
  rw [dif_pos hpath]
  exact fails_failHere _ s

/-- A name without a definition is refused, and the refusal says so. It is neither
finished nor in progress, so the definitions are asked. -/
theorem fails_resolve_of_undefined (hfinished : s.finished.get? name = none) (hpath : name ∉ path)
    (hdef : book.definitions.get? name = none) :
    (resolve book path name).Fails s
      (.compile { cause := .undefinedReference name, location := s.location }) s := by
  rw [resolve]
  refine (yields_get.mpr ⟨rfl, rfl⟩).fails_bind ?_
  simp only [hfinished]
  rw [dif_neg hpath]
  split
  · exact fails_failHere _ s
  · next hsome =>
    rw [hdef] at hsome
    cases hsome

/-- A name that the session is stuck at is taken for **a cycle**. This holds of every
session that is stuck there, since none of them has finished the name. -/
theorem faultsAt_resolve_of_mem (hpath : name ∈ path) :
    FaultsAt book path (resolve book path name) (.compile .cyclicReference) [] := by
  intro s hs
  refine ⟨_, s, fails_resolve_of_mem (hs.get?_finished (hs.ungrounded name hpath)) hpath, rfl, ?_⟩
  rwa [List.append_nil]

/-- A name without a definition is a fault of its own sort, **whatever the session has
done** so far. No definition around it is left open by that, hence the empty chain. -/
theorem faultsAt_resolve_of_undefined (hdef : book.definitions.get? name = none) :
    FaultsAt book path (resolve book path name) (.compile .unresolvedReference) [] := by
  intro s hs
  have hungrounded : ∀ k, ¬ (Term.ref name).Grounded book k := by
    rintro _ ⟨⟩
    simp_all
  have hpath : name ∉ path := by
    intro hmem
    obtain ⟨body, hbody⟩ := hs.defined name hmem
    rw [hdef] at hbody
    cases hbody
  refine ⟨_, s, fails_resolve_of_undefined (hs.get?_finished hungrounded) hpath hdef, rfl, ?_⟩
  rwa [List.append_nil]

/-- A fault inside a definition is one of the reference, with the definition **in front
of its chain**. The definition is entered with its name in progress, and the fault is
met at the place so reached. -/
theorem faultsAt_resolve_of_inside {body : Pattern} (hpath : name ∉ path)
    (hdef : book.definitions.get? name = some body) (hname : ∀ k, ¬ (Term.ref name).Grounded book k)
    (h : FaultsAt book (path ++ [name]) (inside book path name body) σ chain) :
    FaultsAt book path (resolve book path name) σ (name :: chain) := by
  intro s hs
  obtain ⟨e, s', hfails, hsort, hs'⟩ := h _ (hs.inside hdef hname)
  refine ⟨e, s', ?_, hsort, ?_⟩
  · rw [Fails, run_resolve_of_new (hs.get?_finished hname) hpath hdef]
    exact hfails
  · rwa [List.append_assoc] at hs'

end Compiling

end TreeGrammar
