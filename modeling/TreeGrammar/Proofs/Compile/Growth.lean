/-
How a session grows.

Whatever comes of a run, the session has only drawn further numbers and kept further
tables, and each table that it keeps is what the compiling of a definition has just
made. `Session.GrowsTo` says no more than this, step by step, and so what one of its
steps preserves holds of every session that there can be, also in the midst of a run and
after a failure (`GrowsTo.inOrder`). Runs are such growth, and to be so composes
(`composes_grows`). While a definition is being compiled, no table is kept under its
name, so a table that has been kept is never exchanged for another
(`GrowsTo.get?_finished`).
-/
import TreeGrammar.Proofs.Compile.Accounts
import TreeGrammar.Proofs.Compile.Composed
import TreeGrammar.Proofs.Compile.Faults
import TreeGrammar.Proofs.Compile.Workshop

set_option autoImplicit false

namespace TreeGrammar

open Automaton Compiling

/-- The first session **grows into** the second: numbers are drawn, or something else
than a table is noted; and the table of a definition is kept, where its term has just
been compiled and there is none yet. -/
inductive Session.GrowsTo (book : Rulebook) : Session → Session → Prop
  | refl (s : Session) : GrowsTo book s s
  | noted {s s₁ s' : Session} (h : GrowsTo book s s₁) (hfinished : s'.finished = s₁.finished)
      (hdrawn : s₁.drawn ≤ s'.drawn) : GrowsTo book s s'
  | kept {s s₀ s₁ : Session} {name : String} {t : Term} {a : Automaton} (h : GrowsTo book s s₁)
      (hbefore : GrowsTo book {} s₀) (hdef : book.Defines name t)
      (hterm : (term (resolve book s₀.inProgress) t).Yields s₀ a s₁)
      (hnew : s₁.finished.get? name = none) :
      GrowsTo book s { s₁ with finished := s₁.finished.insert name a }

/-- What the session keeps is **in order**: orderly tables of grounded definitions. -/
structure Session.InOrder (book : Rulebook) (s : Session) : Prop where
  orderly : s.Orderly
  groundedAt : s.GroundedAt book s.inProgress

variable {book : Rulebook} {path : List String} {s s₁ s' : Session} {name : String}
  {t : Term} {a : Automaton}

namespace Session

/-- A new session is in order: it has finished nothing. -/
theorem inOrder_new (book : Rulebook) : Session.InOrder book {} :=
  ⟨orderly_new, rfl, fun _ _ h => absurd h (by simp)⟩

/-- A session that keeps the tables of one that is in order, and has drawn no fewer
numbers, is in order. -/
theorem InOrder.noted (hs : s.InOrder book) (hfinished : s'.finished = s.finished)
    (hdrawn : s.drawn ≤ s'.drawn) : s'.InOrder book := by
  refine ⟨fun name a ha => ?_, rfl, fun name a ha => ?_⟩
  · rw [hfinished] at ha
    exact (hs.orderly name a ha).mono hdrawn
  · rw [hfinished] at ha
    exact hs.groundedAt.grounded name a ha

/-- A session that keeps one more orderly table of a grounded definition is in
order. Its edges are in the order that the operators make them in, and its numbers
have been drawn. -/
theorem InOrder.insert (hs : s.InOrder book) (ha : a.Orderly s.drawn)
    (hname : ∃ k, (Term.ref name).Grounded book k) :
    Session.InOrder book { s with finished := s.finished.insert name a } := by
  refine ⟨hs.orderly.insert ha, rfl, fun other b hb => ?_⟩
  rcases OrderedTable.eq_or_of_get?_insert hb with ⟨rfl, -⟩ | hold
  · exact hname
  · exact hs.groundedAt.grounded other b hold

namespace GrowsTo

/-- Growth is put together from growth. That the result is still in order needs no extra
argument, since every stage is reached by single steps. -/
theorem trans (h : s.GrowsTo book s₁) (h' : s₁.GrowsTo book s') : s.GrowsTo book s' := by
  induction h' with
  | refl _ => exact h
  | noted _ hfinished hdrawn ih => exact .noted (ih h) hfinished hdrawn
  | kept _ hbefore hdef hterm hnew ih _ => exact .kept (ih h) hbefore hdef hterm hnew

/-- What is in progress may be set to anything; no step of growth depends on it. -/
theorem entered (s : Session) (path : List String) : s.GrowsTo book { s with inProgress := path } :=
  .noted (.refl s) rfl (Nat.le_refl _)

theorem afterBuild (s : Session) {b : Built} (h : s.drawn ≤ b.drawn) :
    s.GrowsTo book (afterBuild s b) :=
  .noted (.refl s) rfl h

/-- A session that has grown has drawn **no fewer numbers**. Numbers beyond those drawn
are therefore new at any later time, too. -/
theorem drawn_le (h : s.GrowsTo book s') : s.drawn ≤ s'.drawn := by
  induction h with
  | refl _ => exact Nat.le_refl _
  | noted _ _ hdrawn ih => exact ih.trans hdrawn
  | kept _ _ _ _ _ ih _ => exact ih

/-- What has been kept **stays**. A definition is compiled once, and its table is
not replaced. -/
theorem get?_finished (h : s.GrowsTo book s') (ha : s.finished.get? name = some a) :
    s'.finished.get? name = some a := by
  induction h with
  | refl _ => exact ha
  | noted _ hfinished _ ih => rw [hfinished, ih ha]
  | @kept _ _ s₁ other _ b _ _ _ _ hnew ih _ =>
      have hne : other ≠ name := by
        rintro rfl
        rw [ih ha] at hnew
        cases hnew
      rw [OrderedTable.get?_insert, if_neg hne, ih ha]

end GrowsTo

end Session

namespace Compiling

/-- What a call makes in a session in order is orderly, **on numbers that it has
drawn**, and its term is grounded. -/
theorem Yields.orderly (hs : s.InOrder book)
    (h : (term (resolve book s.inProgress) t).Yields s a s') :
    a.Orderly s'.drawn ∧ a.Beyond s.drawn ∧ s'.inProgress = s.inProgress ∧
    ∃ k, t.Grounded book k := by
  obtain ⟨hprecedes, hbeyond, hgrounded⟩ :=
    settles_term (settles_resolve book s.inProgress) t s a s' hs.groundedAt h
  obtain ⟨-, -, horderly⟩ :=
    keepsOrder_term (keepsOrder_resolve book s.inProgress) t s.drawn s _ s' hs.orderly
    (Nat.le_refl _) h
  exact ⟨horderly a rfl, hbeyond, (hprecedes.groundedAt _ hs.groundedAt).inProgress_eq, hgrounded⟩

end Compiling

/-- **What is in order stays in order** while a session grows. By induction on the steps
of growth, each of which draws a number or keeps a table. -/
theorem Session.InOrder.grow (hs : s.InOrder book) (h : s.GrowsTo book s') : s'.InOrder book := by
  induction h with
  | refl _ => exact hs
  | noted _ hfinished hdrawn ih => exact (ih hs).noted hfinished hdrawn
  | kept _ _ hdef hterm _ ih ih₀ =>
      obtain ⟨body, hbody, hcontent⟩ := hdef
      obtain ⟨horderly, -, -, k, hk⟩ := hterm.orderly (ih₀ (inOrder_new book))
      exact (ih hs).insert horderly ⟨k + 1, .ref hbody hcontent hk⟩

/-- Everything that grows out of a new session is in order. The invariant is carried by
the steps, so it holds of whatever a run leaves behind, failed or not. -/
theorem Session.GrowsTo.inOrder (h : Session.GrowsTo book {} s) : s.InOrder book :=
  (inOrder_new book).grow h

/-! ## Runs -/

namespace Compiling

variable {α β : Type}

/-- A run that yields leaves the session that it says, also when the result is not
looked at. Growth is stated for the session that is left, so that runs which fail can
be included. -/
theorem Yields.session_eq {m : Compiling α} {x : α} (h : m.Yields s x s') : (m.run.run s).2 = s' :=
  congrArg Prod.snd h

/-- So does a run that fails. Growth speaks of what a run leaves **in either case**. -/
theorem Fails.session_eq {m : Compiling α} {e : Failure} (h : m.Fails s e s') :
    (m.run.run s).2 = s' :=
  congrArg Prod.snd h

/-- Whatever comes of the run, the session **has grown**, and keeps nothing more for the
names of the path. -/
def Grows (book : Rulebook) (path : List String) (m : Compiling α) : Prop :=
  ∀ s, Session.GrowsTo book {} s → s.GrowsTo book (m.run.run s).2 ∧
    ∀ name ∈ path, (m.run.run s).2.finished.get? name = s.finished.get? name

/-- A step that leaves the session as it is lets it grow by nothing. -/
theorem grows_of_unchanged {m : Compiling α} (h : ∀ s, (m.run.run s).2 = s) :
    Grows book path m := by
  intro s _
  rw [h s]
  exact ⟨.refl s, fun _ _ => rfl⟩

theorem grows_pure (x : α) : Grows book path (pure x) := grows_of_unchanged fun _ => rfl

theorem grows_failHere (cause : CompileCause) : Grows book path (failHere cause : Compiling α) :=
  grows_of_unchanged fun _ => rfl

theorem grows_ofExcept (e : Except Failure α) : Grows book path (ofExcept e) := by
  cases e <;> exact grows_of_unchanged fun _ => rfl

/-- A change of the session that leaves its definitions and its counter alone is no
growth at all. -/
theorem grows_modify {f : Session → Session} (hfinished : ∀ s, (f s).finished = s.finished)
    (hdrawn : ∀ s, (f s).drawn = s.drawn) :
    Grows book path (modifyThe Session f : Compiling PUnit) :=
  fun s _ => ⟨.noted (.refl s) (hfinished s) (Nat.le_of_eq (hdrawn s).symm),
    fun name _ => congrArg (fun kept => OrderedTable.get? kept name) (hfinished s)⟩

/-- Building a table is one step, if it draws forward. -/
theorem grows_build {f : Nat → Built} (h : ∀ n, n ≤ (f n).drawn) : Grows book path (build f) :=
  fun s _ => ⟨.afterBuild s (h s.drawn), fun _ _ => rfl⟩

/-- What is left of a run after its first step. If the first step fails nothing more
happens, otherwise the rest is a run from where it ended. -/
theorem growsTo_bind {m : Compiling α} {f : α → Compiling β} (hf : ∀ x, Grows book path (f x))
    (hs : Session.GrowsTo book {} (m.run.run s).2) :
    (m.run.run s).2.GrowsTo book ((m >>= f).run.run s).2 ∧
      ∀ name ∈ path, ((m >>= f).run.run s).2.finished.get? name =
        (m.run.run s).2.finished.get? name := by
  cases hm : m.run.run s with
  | mk r s₁ =>
      rw [hm] at hs
      cases r with
      | error e =>
          rw [(Fails.bind hm f).session_eq]
          exact ⟨.refl s₁, fun _ _ => rfl⟩
      | ok x =>
          rw [Yields.run_bind hm f]
          exact hf x s₁ hs

/-- Steps that let a session grow do so one after the other; **where the first fails,
the rest is left out**, and what it left is all that was grown. -/
theorem grows_bind {m : Compiling α} {f : α → Compiling β} (hm : Grows book path m)
    (hf : ∀ x, Grows book path (f x)) : Grows book path (m >>= f) := by
  intro s hs
  obtain ⟨hfirst, hsame⟩ := hm s hs
  obtain ⟨hrest, hsame'⟩ := growsTo_bind hf (hs.trans hfirst)
  exact ⟨hfirst.trans hrest, fun name hname => (hsame' name hname).trans (hsame name hname)⟩

/-- A step that may be made within a path may be made within a shorter one. The names of
a path are those that must not be finished while it is followed. -/
theorem Grows.mono {sub : List String} {m : Compiling α} (h : Grows book path m)
    (hsub : ∀ name ∈ sub, name ∈ path) : Grows book sub m :=
  fun s hs => ⟨(h s hs).1, fun name hname => (h s hs).2 name (hsub name hname)⟩

/-- To make a session grow **composes**. What is left to show for the compiler is the
resolving of one reference. -/
theorem composes_grows (book : Rulebook) (path : List String) :
    Composes fun _ m => Grows book path m :=
  ⟨grows_pure, grows_bind, grows_failHere, grows_ofExcept, grows_build⟩

/-! ## Terms and references -/

/-- Inside a definition, what comes after its term has been compiled is that the table,
if there is one, **is kept** under the definition's name. -/
theorem growsTo_inside_of_term {body : Pattern} (hs : Session.GrowsTo book {} s)
    (hin : s.inProgress = path ++ [name]) (hdef : book.definitions.get? name = some body)
    (hcontent : Content.ofPattern book.limits body = .ok (.term t))
    (hnew : s.finished.get? name = none)
    (hresolve : ∀ other, Grows book (path ++ [name]) (resolve book (path ++ [name]) other)) :
    ((term (resolve book (path ++ [name])) t).run.run s).2.GrowsTo book
      ((inside book path name body).run.run s).2 ∧
      ∀ other ≠ name, ((inside book path name body).run.run s).2.finished.get? other =
        ((term (resolve book (path ++ [name])) t).run.run s).2.finished.get? other := by
  obtain ⟨hgrows, hsame⟩ := (composes_grows book _).term hresolve t s hs
  rw [inside, hcontent, ofExcept, pure_bind]
  cases hrun : (term (resolve book (path ++ [name])) t).run.run s with
  | mk r s₁ =>
      rw [hrun] at hgrows hsame
      -- only a term that compiles is kept; where it fails, nothing of this definition is
      cases r with
      | error e =>
          rw [(Fails.bind hrun _).session_eq]
          exact ⟨.refl s₁, fun _ _ => rfl⟩
      | ok a =>
          have hnew₁ : s₁.finished.get? name = none := by
            rw [hsame name (List.mem_append_right path (List.mem_singleton_self name)), hnew]
          have hterm : (term (resolve book s.inProgress) t).Yields s a s₁ := by rwa [hin]
          rw [Yields.run_bind hrun]
          refine ⟨.trans (.kept (.refl s₁) hs ⟨body, hdef, hcontent⟩ hterm hnew₁)
            (.entered _ path), ?_⟩
          intro other hother
          show (s₁.finished.insert name a).get? other = _
          rw [OrderedTable.get?_insert, if_neg hother.symm]

/-- Inside a definition a session grows, **if it does by the references there**. When
the definition is left its table is kept, and this is one more step of growth. -/
theorem growsTo_inside {body : Pattern} (hs : Session.GrowsTo book {} s)
    (hin : s.inProgress = path ++ [name]) (hdef : book.definitions.get? name = some body)
    (hnew : s.finished.get? name = none)
    (hresolve : ∀ other, Grows book (path ++ [name]) (resolve book (path ++ [name]) other)) :
    s.GrowsTo book ((inside book path name body).run.run s).2 ∧
      ∀ other ∈ path, other ≠ name →
        ((inside book path name body).run.run s).2.finished.get? other = s.finished.get? other := by
  cases hcontent : Content.ofPattern book.limits body with
  | error e =>
      rw [inside, hcontent]
      exact ⟨.refl s, fun _ _ _ => rfl⟩
  | ok c =>
      cases c with
      | interleave ts =>
          rw [inside, hcontent]
          exact ⟨.refl s, fun _ _ _ => rfl⟩
      | term t =>
          obtain ⟨hgrows, hsame⟩ := (composes_grows book _).term hresolve t s hs
          obtain ⟨hrest, hsame'⟩ := growsTo_inside_of_term hs hin hdef hcontent hnew hresolve
          refine ⟨hgrows.trans hrest, fun other hother hne => ?_⟩
          rw [hsame' other hne, hsame other (List.mem_append_left _ hother)]

/-- A session grows by a reference, also where its definition **fails half-way**. The
induction is that of `resolve`: on the definitions that are not being compiled. -/
theorem grows_resolve (book : Rulebook) (path : List String) (name : String) :
    Grows book path (resolve book path name) := by
  induction hn : unseen book.definitions.keys path using Nat.strong_induction_on
    generalizing path name with
  | _ n ih =>
    intro s hs
    cases hfinished : s.finished.get? name with
    | some kept =>
        rw [((yields_resolve_of_kept hfinished).mpr ⟨rfl, rfl⟩).session_eq]
        exact ⟨.afterBuild s (le_drawn_copy kept s.drawn), fun _ _ => rfl⟩
    | none =>
        by_cases hpath : name ∈ path
        · rw [show _ = _ from fails_resolve_of_mem hfinished hpath]
          exact ⟨.refl s, fun _ _ => rfl⟩
        cases hdef : book.definitions.get? name with
        | none =>
            rw [(fails_resolve_of_undefined hfinished hpath hdef).session_eq]
            exact ⟨.refl s, fun _ _ => rfl⟩
        | some body =>
            -- the definition joins those being compiled, so fewer are left for the
            -- references in it
            have hless : unseen book.definitions.keys (path ++ [name]) < n := by
              rw [← hn]
              exact unseen_append_lt hdef hpath
            have hentered : s.GrowsTo book { s with inProgress := path ++ [name] } := .entered s _
            obtain ⟨hgrows, hsame⟩ := growsTo_inside (hs.trans hentered) rfl hdef hfinished
              fun other => ih _ hless (path ++ [name]) other rfl
            rw [run_resolve_of_new hfinished hpath hdef]
            exact ⟨hentered.trans hgrows, fun other hother => hsame other hother fun heq => hpath
              (heq ▸ hother)⟩

/-- Compiling a term lets the session grow: its references are resolved by steps that
do. Nothing is assumed of the term, so orders that fail are included. -/
theorem grows_call (book : Rulebook) (path : List String) (t : Term) :
    Grows book path (term (resolve book path) t) :=
  (composes_grows book path).term (grows_resolve book path) t

/-! ## Contents and patterns -/

/-- The bound on the size of a table is checked once the table is there, so that a term
too large has been compiled, too. -/
theorem grows_boundedTerm (book : Rulebook) (t : Term) : Grows book [] (boundedTerm book t) := by
  intro s hs
  have hrun : (boundedTerm book t).run.run s = (term (resolve book s.inProgress) t >>= fun a =>
      ofExcept ((book.limits.check .automatonStates a.stateCount).mapError .limit) >>= fun _ =>
        pure a).run.run s :=
    Yields.run_bind (yields_get.mpr ⟨rfl, rfl⟩) _
  rw [hrun]
  have hterm : Grows book [] (term (resolve book s.inProgress) t) :=
    (grows_call book s.inProgress t).mono fun _ h => absurd h List.not_mem_nil
  exact grows_bind hterm (fun a => grows_bind (grows_ofExcept _) fun _ => grows_pure a) s hs

/-- Compiling a pattern lets the session grow, **even where it is refused**. What a
refused pattern leaves in the session is the start of the next. -/
theorem grows_pattern (book : Rulebook) (p : Pattern) : Grows book [] (pattern book p) :=
  (composes_grows book []).pattern (grows_boundedTerm book) p

end Compiling

/-! ## Orders -/

/-- An order for tables that is a step of a compilation, if its operands are there. -/
theorem Order.grows_made {o : Option (Compiling Automaton)}
    (h : ∀ step, o = some step → Grows book [] step) : Grows book [] (made o) := by
  cases o with
  | none => exact grows_pure []
  | some step => exact grows_bind (h step rfl) fun a => grows_pure [a]

/-- An order for one table from one table. If the table that it asks for is not there
nothing is run. -/
theorem Order.grows_one {f : Automaton → Compiling Automaton} {before : List Automaton} (i : Nat)
    (h : ∀ a, Grows book [] (f a)) :
    Grows book [] (made do
      let a ← before[i]?
      return f a) := by
  refine grows_made fun step hstep => ?_
  obtain ⟨a, -, hstep⟩ := Option.bind_eq_some_iff.mp hstep
  rw [← Option.some.inj hstep]
  exact h a

/-- An order for one table from two tables, or from one taken twice. -/
theorem Order.grows_two {f : Automaton → Automaton → Compiling Automaton} {before : List Automaton}
    (i j : Nat) (h : ∀ a b, Grows book [] (f a b)) :
    Grows book [] (made do
      let a ← before[i]?
      let b ← before[j]?
      return f a b) := by
  refine grows_made fun step hstep => ?_
  obtain ⟨a, -, hstep⟩ := Option.bind_eq_some_iff.mp hstep
  obtain ⟨b, -, hstep⟩ := Option.bind_eq_some_iff.mp hstep
  rw [← Option.some.inj hstep]
  exact h a b

/-- A session grows by **every order**. There is one case for each kind of order, and
most of them are one of the three above. -/
theorem Order.grows (book : Rulebook) (before : List Automaton) (o : Order) :
    Grows book [] (o.tables book before) := by
  cases o with
  | emptyWord => exact grows_pure _
  | single x => exact grows_pure _
  | copy i => exact grows_one i fun a => grows_build (le_drawn_copy a)
  | append i j =>
      exact grows_two i j fun a b => grows_build fun n => Nat.le_of_lt (lt_drawn_append n a b)
  | merge i j => exact grows_two i j fun a b => grows_build fun n => le_drawn_merge n a b
  | optional i => exact grows_one i fun a => grows_pure a.optional
  | plus i => exact grows_one i fun a => grows_build fun n => Nat.le_succ n
  | kleene i => exact grows_one i fun a => grows_build fun n => Nat.le_succ n
  | pattern p => exact grows_bind (grows_pattern book p) fun c => grows_pure c.automata
  | locate place =>
      exact grows_bind (grows_modify (fun _ => rfl) fun _ => rfl) fun _ => grows_pure []
  | takeWarnings =>
      exact grows_bind (grows_modify (fun _ => rfl) fun _ => rfl) fun _ => grows_pure []

namespace Workshop

/-- What an order does to the session is what its run leaves there. The workshop only
keeps the table. -/
theorem session_step (book : Rulebook) (w : Workshop) (o : Order) :
    (w.step book o).session = ((o.tables book w.tables).run.run w.session).2 := by
  unfold step
  cases (o.tables book w.tables).run.run w.session with
  | mk r s => cases r <;> rfl

/-- The session of a workshop **grows by all orders**, however often one fails. By
induction on the orders. The first of them finds a session that calls have led to, and
so do all others. -/
theorem growsTo_run {w : Workshop} (hw : Session.GrowsTo book {} w.session) (os : List Order) :
    w.session.GrowsTo book (w.run book os).session := by
  induction os generalizing w with
  | nil => exact .refl w.session
  | cons o os ih =>
      have hstep : w.session.GrowsTo book (w.step book o).session := by
        rw [session_step]
        exact (o.grows book w.tables w.session hw).1
      exact hstep.trans (ih (hw.trans hstep))

end Workshop

end TreeGrammar
