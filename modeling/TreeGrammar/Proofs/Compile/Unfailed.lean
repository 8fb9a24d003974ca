/-
A session that has been used without a failure.

Between its uses such a session is compiling no definition, and what it has finished was
made for the definitions. Its warnings may have been handed out, so that they do not
tell any more what was lost; but no step looks at the warnings (`Heedless`), and a
session that went the same way and kept its warnings is ready for every content
(`exists_ready_of_unfailed`).
-/
import TreeGrammar.Proofs.Compile.Composed

set_option autoImplicit false

namespace TreeGrammar

open Automaton Compiling

/-- The session with other warnings. -/
def Session.warned (s : Session) (ws : List Warning) : Session := { s with warnings := ws }

namespace Compiling

variable {α β : Type} {m : Compiling α} {book : Rulebook} {resolve : String → Compiling Automaton}

/-! ## Warnings are not looked at -/

/-- With other warnings the step yields **the same**, and leaves the same session but
for the warnings. -/
def Heedless (m : Compiling α) : Prop :=
  ∀ s x s' ws, m.Yields s x s' → ∃ ws', m.Yields (s.warned ws) x (s'.warned ws')

/-- A result is the same with other warnings in the session. -/
theorem heedless_pure (x : α) : Heedless (pure x) := by
  intro s y s' ws h
  obtain ⟨rfl, rfl⟩ := yields_pure.mp h
  exact ⟨ws, yields_pure.mpr ⟨rfl, rfl⟩⟩

/-- Steps that do not look at warnings do not look at them one after the other. The
first leaves sessions that differ in their warnings only, and the second starts
from those. -/
theorem Heedless.bind {f : α → Compiling β} (h : Heedless m) (hf : ∀ x, Heedless (f x)) :
    Heedless (m >>= f) := by
  intro s y s' ws hy
  obtain ⟨x, s₁, hx, hy⟩ := yields_bind.mp hy
  obtain ⟨ws₁, hx⟩ := h s x s₁ ws hx
  obtain ⟨ws', hy⟩ := hf x s₁ y s' ws₁ hy
  exact ⟨ws', yields_bind.mpr ⟨x, _, hx, hy⟩⟩

/-- Building a table **adds** warnings without reading any. The table depends on the
numbers drawn, and these are the same. -/
theorem heedless_build (f : Nat → Built) : Heedless (build f) := by
  intro s a s' ws h
  obtain ⟨rfl, rfl⟩ := yields_build.mp h
  exact ⟨_, yields_build.mpr ⟨rfl, rfl⟩⟩

theorem heedless_failHere (cause : CompileCause) : Heedless (failHere cause : Compiling α) :=
  fun _ _ _ _ h => absurd h not_yields_failHere

theorem heedless_ofExcept (e : Except Failure α) : Heedless (ofExcept e) := by
  intro s x s' ws h
  obtain ⟨he, rfl⟩ := yields_ofExcept.mp h
  exact ⟨ws, yields_ofExcept.mpr ⟨he, rfl⟩⟩

/-- Not to look at the warnings **composes**. Only references remain to be looked at. -/
theorem composes_heedless : Composes fun _ m => Heedless m :=
  ⟨heedless_pure, Heedless.bind, heedless_failHere, heedless_ofExcept, fun _ => heedless_build _⟩

/-- A term does not look at the warnings **if its references do not**. Not to look at
warnings composes. -/
theorem heedless_term (hresolve : ∀ name, Heedless (resolve name)) (t : Term) :
    Heedless (term resolve t) :=
  composes_heedless.term hresolve t

/-- A reference does not look at the warnings. The induction is that of `resolve`. -/
theorem heedless_resolve (book : Rulebook) (path : List String) (name : String) :
    Heedless (Compiling.resolve book path name) := by
  induction hn : unseen book.definitions.keys path using Nat.strong_induction_on
    generalizing path name with
  | _ n ih =>
    intro s a s' ws h
    cases hfinished : s.finished.get? name with
    | some kept =>
        obtain ⟨rfl, rfl⟩ := (yields_resolve_of_kept hfinished).mp h
        exact ⟨_, (yields_resolve_of_kept (s := s.warned ws) hfinished).mpr ⟨rfl, rfl⟩⟩
    | none =>
        obtain ⟨hpath, body, t, s₁, hdef, hcontent, hterm, rfl⟩ :=
          (yields_resolve_of_new hfinished).mp h
        have hless : unseen book.definitions.keys (path ++ [name]) < n := by
          rw [← hn]
          exact unseen_append_lt hdef hpath
        obtain ⟨ws', hterm'⟩ :=
          heedless_term (fun other => ih _ hless (path ++ [name]) other rfl) t _ a s₁ ws hterm
        exact ⟨ws', (yields_resolve_of_new (s := s.warned ws) hfinished).mpr
          ⟨hpath, body, t, s₁.warned ws', hdef, hcontent, hterm', rfl⟩⟩

/-- So a term compiles to the same table, whatever warnings were there. -/
theorem heedless_boundedTerm (book : Rulebook) (t : Term) : Heedless (boundedTerm book t) := by
  intro s a s' ws h
  obtain ⟨h, hcheck⟩ := yields_boundedTerm.mp h
  obtain ⟨ws', h'⟩ := heedless_term (heedless_resolve book s.inProgress) t s a s' ws h
  exact ⟨ws', yields_boundedTerm.mpr ⟨h', hcheck⟩⟩

theorem heedless_content (book : Rulebook) (c : Content) : Heedless (content book c) :=
  composes_heedless.content (heedless_boundedTerm book) c

/-- So does a pattern, which is why a session that has been used for others may be
compared with a new one. -/
theorem heedless_pattern (book : Rulebook) (p : Pattern) : Heedless (pattern book p) :=
  composes_heedless.pattern (heedless_boundedTerm book) p

end Compiling

/-! ## Sessions that have been used -/

/-- The session has been used, in whatever way, **without a failure**. -/
inductive Session.Unfailed (book : Rulebook) : Session → Prop
  | new : Session.Unfailed book {}
  | located {s : Session} (location : Option String) (hs : Session.Unfailed book s) :
      Session.Unfailed book { s with location := location }
  | handedOut {s : Session} (hs : Session.Unfailed book s) :
      Session.Unfailed book (Session.takeWarnings.run s).2
  | operator {s s' : Session} {f : Nat → Built} {a : Automaton} (hs : Session.Unfailed book s)
      (hf : ∀ n, n ≤ (f n).drawn) (h : (Compiling.build f).Yields s a s') : Session.Unfailed book s'
  | term {s s' : Session} {t : Term} {a : Automaton} (hs : Session.Unfailed book s)
      (h : (Compiling.term (Compiling.resolve book s.inProgress) t).Yields s a s') :
      Session.Unfailed book s'
  | content {s s' : Session} {c : Content} {x : Compiled} (hs : Session.Unfailed book s)
      (h : (Compiling.content book c).Yields s x s') : Session.Unfailed book s'
  | pattern {s s' : Session} {p : Pattern} {x : Compiled} (hs : Session.Unfailed book s)
      (h : (Compiling.pattern book p).Yields s x s') : Session.Unfailed book s'

variable {book : Rulebook} {s s' : Session} {t : Term} {a : Automaton}

namespace Session

theorem Ready.afterBuild (hs : s.Ready book) {b : Built} (hb : s.drawn ≤ b.drawn) :
    Session.Ready book (Compiling.afterBuild s b) :=
  ⟨hs.sound.mono rfl (loses_afterBuild s b hb),
    (Precedes.afterBuild s hb).groundedAt [] hs.groundedAt⟩

/-- Compiling a term leaves it ready, with the definitions that were finished on the
way. Those definitions compile, since they have. -/
theorem Ready.term (hs : s.Ready book)
    (h : (Compiling.term (resolve book s.inProgress) t).Yields s a s') : s'.Ready book := by
  obtain ⟨r, cs, hdelivers⟩ :=
    delivers_term (delivers_resolve book s.inProgress) t s a s' hs.sound h
  rw [hs.groundedAt.inProgress_eq] at h
  obtain ⟨hprecedes, -, -⟩ := settles_term (settles_resolve book []) t s a s' hs.groundedAt h
  exact ⟨hdelivers.sound, hprecedes.groundedAt [] hs.groundedAt⟩

/-- A step that keeps sessions ready and does not look at warnings **keeps those ready
that once were**. -/
theorem exists_ready_of_yields {α : Type} {m : Compiling α} {x : α} (hm : Heedless m)
    (hready : ∀ s s', s.Ready book → m.Yields s x s' → s'.Ready book) (h : m.Yields s x s')
    (hs : ∃ ws, Session.Ready book (s.warned ws)) : ∃ ws, Session.Ready book (s'.warned ws) := by
  obtain ⟨ws, hs⟩ := hs
  obtain ⟨ws', h'⟩ := hm s x s' ws h
  exact ⟨ws', hready _ _ hs h'⟩

/-- A session that has not failed is **ready** but for its warnings. What has been shown
of ready sessions is carried over in this way, as no step looks at warnings. -/
theorem exists_ready_of_unfailed (h : s.Unfailed book) :
    ∃ ws, Session.Ready book (s.warned ws) := by
  induction h with
  | new => exact ⟨[], ready_new book⟩
  | located location _ ih =>
      obtain ⟨ws, hs⟩ := ih
      exact ⟨ws, hs.located location⟩
  | handedOut _ ih => exact ih
  | operator _ hf h ih =>
      refine exists_ready_of_yields (heedless_build _) (fun s s' hs h => ?_) h ih
      obtain ⟨-, rfl⟩ := yields_build.mp h
      exact hs.afterBuild (hf s.drawn)
  -- the term is compiled once more with the warnings that a ready session needs
  | @term s s' t a _ h ih =>
      obtain ⟨ws, hs⟩ := ih
      obtain ⟨ws', h'⟩ := heedless_term (heedless_resolve book s.inProgress) t s a s' ws h
      exact ⟨ws', hs.term h'⟩
  | content _ h ih =>
      exact exists_ready_of_yields (heedless_content book _)
        (fun s s' hs h => (numbersItsTables_content book _ s _ s' hs h).1) h ih
  | pattern _ h ih =>
      exact exists_ready_of_yields (heedless_pattern book _)
        (fun s s' hs h => (numbersItsTables_pattern book _ s _ s' hs h).1) h ih

end Session

end TreeGrammar
