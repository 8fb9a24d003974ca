/-
The same content in another session.

Between two contents a session is **ready**: it is compiling no definition, and those
that it has finished are grounded and have tables made for them. What is compiled in a
ready session is compiled in every other one, up to a renaming (`reruns_pattern`): the
term is grounded, so that it compiles there too, and the two tables are made for its one
expansion. In one session, no two contents get the same number
(`numbersItsTables_pattern`).
-/
import TreeGrammar.Proofs.Compile.Grounded
import TreeGrammar.Proofs.Compile.Standard
import TreeGrammar.Proofs.Content.Recoding

set_option autoImplicit false

namespace TreeGrammar

open Automaton Compiling

/-- The session is **between two contents**: what it has finished is grounded, and has a
table made for it. -/
structure Session.Ready (book : Rulebook) (s : Session) : Prop where
  sound : s.Sound book.definitions
  groundedAt : s.GroundedAt book []

variable {book : Rulebook} {s s' : Session} {t : Term} {a : Automaton}

namespace Session

theorem ready_new (book : Rulebook) : Session.Ready book {} :=
  ⟨sound_new book.definitions, rfl, fun _ _ h => absurd h (by simp)⟩

theorem Ready.located (h : s.Ready book) (location : Option String) :
    Session.Ready book { s with location := location } :=
  ⟨h.sound, h.groundedAt.inProgress_eq, h.groundedAt.grounded⟩

end Session

namespace Compiling

variable {α β : Type}

/-! ## Numbers of one session -/

/-- A run from a ready session leads to a ready session, and has its tables **on the
numbers drawn between**. -/
def NumbersItsTables (book : Rulebook) (m : Compiling α) (tables : α → List Automaton) : Prop :=
  ∀ s x s', s.Ready book → m.Yields s x s' →
    s'.Ready book ∧ s.drawn ≤ s'.drawn ∧ NumberedBetween s.drawn s'.drawn (tables x)

/-- A bounded term has its table on numbers of its own, drawn between the beginning and
the end of its run. -/
theorem numbersItsTables_boundedTerm (book : Rulebook) (t : Term) :
    NumbersItsTables book (boundedTerm book t) fun a => [a] := by
  intro s a s' hs h
  obtain ⟨hrun, -⟩ := yields_boundedTerm.mp h
  obtain ⟨r, cs, hdelivers⟩ := delivers_boundedTerm hs.sound h
  rw [hs.groundedAt.inProgress_eq] at hrun
  obtain ⟨hprecedes, hbeyond, -⟩ :=
    settles_term (settles_resolve book []) t s a s' hs.groundedAt hrun
  exact ⟨⟨hdelivers.sound, hprecedes.groundedAt [] hs.groundedAt⟩, hprecedes.drawn_le,
    .singleton hdelivers.made.tidy hbeyond hdelivers.within⟩

/-- Blocks draw their numbers one after the other, so their tables lie side by side. -/
theorem numbersItsTables_blocks (book : Rulebook) (ts : List Term) :
    NumbersItsTables book (blocks book ts) id := by
  induction ts with
  | nil =>
      intro s as s' hs h
      obtain ⟨rfl, rfl⟩ := yields_blocks_nil.mp h
      exact ⟨hs, Nat.le_refl _, .nil _ _⟩
  | cons t ts ih =>
      intro s as s' hs h
      obtain ⟨a, s₁, rest, ha, hrest, rfl⟩ := yields_blocks_cons.mp h
      obtain ⟨hs₁, hle, hnumbered⟩ := numbersItsTables_boundedTerm book t s a s₁ hs ha
      obtain ⟨hs', hle', hnumbered'⟩ := ih s₁ rest s' hs₁ hrest
      exact ⟨hs', hle.trans hle', hnumbered.append hnumbered' hle hle'⟩

/-- The tables of a content lie **on numbers of their own**, side by side. -/
theorem numbersItsTables_content (book : Rulebook) (c : Content) :
    NumbersItsTables book (content book c) Compiled.automata := by
  intro s x s' hs h
  cases c with
  | term t =>
      obtain ⟨a, ha, rfl⟩ := yields_content_term.mp h
      exact numbersItsTables_boundedTerm book t s a s' hs ha
  | interleave ts =>
      obtain ⟨as, has, rfl⟩ := yields_content_interleave.mp h
      exact numbersItsTables_blocks book ts s as s' hs has

/-- The tables of a pattern are on numbers **that no table before has**. The numbers of
a run are those between what has been drawn before it and what has been drawn after. -/
theorem numbersItsTables_pattern (book : Rulebook) (p : Pattern) :
    NumbersItsTables book (pattern book p) Compiled.automata := by
  intro s x s' hs h
  obtain ⟨normal, whole, c, -, -, -, h⟩ := yields_pattern h
  exact numbersItsTables_content book c s x s' hs h

/-! ## Another session -/

/-- What the first step yields in one ready session, the second yields **in every
other**, up to the relation; and both sessions are ready again. -/
def Reruns (book : Rulebook) (m m' : Compiling α) (R : α → α → Prop) : Prop :=
  ∀ s x s' u, s.Ready book → m.Yields s x s' → u.Ready book →
    ∃ y u', m'.Yields u y u' ∧ s'.Ready book ∧ u'.Ready book ∧ R x y

variable {m m' : Compiling α} {R : α → α → Prop} {Q : β → β → Prop}

/-- A result that is there already is there in every session. -/
theorem reruns_pure {x y : α} (h : R x y) : Reruns book (pure x) (pure y) R := by
  intro s z s' u hs hz hu
  rw [yields_pure] at hz
  obtain ⟨rfl, rfl⟩ := hz
  exact ⟨y, u, yields_pure.mpr ⟨rfl, rfl⟩, hs, hu, h⟩

/-- Steps that can be made again in another session can be made again one after the
other, **from related results**. -/
theorem reruns_bind {f f' : α → Compiling β} (h : Reruns book m m' R)
    (hf : ∀ x y, R x y → Reruns book (f x) (f' y) Q) : Reruns book (m >>= f) (m' >>= f') Q := by
  intro s z s' u hs hz hu
  rw [yields_bind] at hz
  obtain ⟨x, s₁, hx, hz⟩ := hz
  obtain ⟨y, u₁, hy, hs₁, hu₁, hxy⟩ := h s x s₁ u hs hx hu
  obtain ⟨z', u', hz', hs', hu', hzz'⟩ := hf x y hxy s₁ z s' u₁ hs₁ hz hu₁
  exact ⟨z', u', yields_bind.mpr ⟨y, u₁, hy, hz'⟩, hs', hu', hzz'⟩

/-- A check can be made again if it says the same of related values. Limits are checked
in this way, and recodings have the same number of states. -/
theorem reruns_ofExcept {e e' : Except Failure α} (h : ∀ x, e = .ok x → ∃ y, e' = .ok y ∧ R x y) :
    Reruns book (ofExcept e) (ofExcept e') R := by
  intro s x s' u hs hx hu
  rw [yields_ofExcept] at hx
  obtain ⟨hx, rfl⟩ := hx
  obtain ⟨y, hy, hxy⟩ := h x hx
  exact ⟨y, u, yields_ofExcept.mpr ⟨hy, rfl⟩, hs, hu, hxy⟩

/-- A check that does not depend on the session says the same again. -/
theorem reruns_orFailHere (e : Except CompileCause α) :
    Reruns book (orFailHere e) (orFailHere e) Eq := by
  intro s x s' u hs hx hu
  rw [yields_orFailHere] at hx
  obtain ⟨hx, rfl⟩ := hx
  exact ⟨x, u, yields_orFailHere.mpr ⟨hx, rfl⟩, hs, hu, rfl⟩

theorem reruns_locate (location : Option String) :
    Reruns book (modifyThe Session fun s => { s with location := location })
      (modifyThe Session fun s => { s with location := location }) fun _ _ => True := by
  intro s x s' u hs hx hu
  rw [yields_modify] at hx
  subst hx
  exact ⟨⟨⟩, _, yields_modify.mpr rfl, hs.located location, hu.located location, trivial⟩

/-- A term makes **recodings of one table**, whatever has been compiled before: it is
grounded, so it compiles in the other session as well, and its tables are made for its
one expansion. -/
theorem reruns_boundedTerm (book : Rulebook) (t : Term) :
    Reruns book (boundedTerm book t) (boundedTerm book t) Automaton.Recodes := by
  intro s a s' u hs h hu
  obtain ⟨hs', -, -⟩ := numbersItsTables_boundedTerm book t s a s' hs h
  obtain ⟨r, cs, hdelivers⟩ := delivers_boundedTerm hs.sound h
  obtain ⟨hrun, hcheck⟩ := yields_boundedTerm.mp h
  rw [hs.groundedAt.inProgress_eq] at hrun
  obtain ⟨-, -, k, hgrounded⟩ := settles_term (settles_resolve book []) t s a s' hs.groundedAt hrun
  obtain ⟨b, u', hb⟩ := exists_yields_term
    (fun name hname u => exists_yields_resolve hname (fun other ho => absurd ho List.not_mem_nil) u)
    hgrounded u
  obtain ⟨q, ds, hdelivers'⟩ :=
    delivers_term (fun name => delivers_resolve book [] name) t u b u' hu.sound hb
  obtain rfl := hdelivers.expands.unique hdelivers'.expands
  have hab : a.Recodes b := hdelivers.made.recodes hdelivers'.made
  -- a renaming of the states does not change how many there are
  have hyields : (boundedTerm book t).Yields u b u' := by
    rw [yields_boundedTerm, hu.groundedAt.inProgress_eq, hab.stateCount_eq]
    exact ⟨hb, hcheck⟩
  obtain ⟨hu', -, -⟩ := numbersItsTables_boundedTerm book t u b u' hu hyields
  exact ⟨b, u', hyields, hs', hu', hab⟩

/-- Blocks compile again, to tables that differ in the names of states. By induction on
the blocks: each block compiles again in the session that the others have left. -/
theorem reruns_blocks (book : Rulebook) (ts : List Term) :
    Reruns book (blocks book ts) (blocks book ts) (List.Forall₂ Automaton.Recodes) := by
  induction ts with
  | nil =>
      rw [blocks]
      exact reruns_pure .nil
  | cons t ts ih =>
      rw [blocks]
      apply reruns_bind (reruns_boundedTerm book t)
      intro a b hab
      apply reruns_bind ih
      intro as bs habs
      exact reruns_pure (.cons hab habs)

/-- What is compiled is of one form, and recoded table by table. -/
def RecodesAs (c c' : Compiled) : Prop :=
  (Expression.ofCompiled c).Recodes (Expression.ofCompiled c')

theorem reruns_content (book : Rulebook) (c : Content) :
    Reruns book (content book c) (content book c) RecodesAs := by
  cases c with
  | term t =>
      rw [content]
      apply reruns_bind (reruns_boundedTerm book t)
      exact fun a b hab => reruns_pure (.single hab)
  | interleave ts =>
      rw [content]
      apply reruns_bind (reruns_blocks book ts)
      exact fun as bs habs => reruns_pure (.interleave .firstMatch habs)

/-- What a pattern stands for as a whole content is found **without a look at the
session**. By induction on the definitions that can still be followed. -/
theorem exists_wholeContent_eq (book : Rulebook) (followed : List String) (p : Pattern) :
    ∃ found : Except CompileCause Pattern, wholeContent book followed p = orFailHere found := by
  induction hn : unseen book.definitions.keys followed using Nat.strong_induction_on
    generalizing followed p with
  | _ n ih =>
    rw [wholeContent.eq_def]
    split
    · next name =>
      split
      · exact ⟨.error (.referenceCycle followed name), rfl⟩
      · next hfollowed =>
        split
        · exact ⟨.error (.undefinedReference name), rfl⟩
        · next body hbody =>
          cases body.normalize with
          | error cause => exact ⟨.error cause, rfl⟩
          | ok normal =>
              rw [orFailHere, pure_bind]
              split
              · next other =>
                have hless : unseen book.definitions.keys (followed ++ [name]) < n := by
                  rw [← hn]
                  exact unseen_append_lt hbody hfollowed
                exact ih _ hless (followed ++ [name]) (.ref other) rfl
              · next parts => exact ⟨.ok (.interleave parts), rfl⟩
              · exact ⟨.ok (.ref name), rfl⟩
    · exact ⟨.ok p, rfl⟩

/-- Following lone references looks at definitions only, so it comes to the very same
pattern again. -/
theorem reruns_wholeContent (book : Rulebook) (followed : List String) (p : Pattern) :
    Reruns book (wholeContent book followed p) (wholeContent book followed p) Eq := by
  obtain ⟨found, hfound⟩ := exists_wholeContent_eq book followed p
  rw [hfound]
  exact reruns_orFailHere found

/-- A pattern makes **recodings of the same tables** in every session that is ready for
it. It puts together what has been shown of its stages. -/
theorem reruns_pattern (book : Rulebook) (p : Pattern) :
    Reruns book (pattern book p) (pattern book p) RecodesAs := by
  rw [pattern]
  apply reruns_bind (reruns_orFailHere _)
  rintro normal _ rfl
  apply reruns_bind (reruns_wholeContent book [] normal)
  rintro whole _ rfl
  apply reruns_bind (reruns_ofExcept fun c hc => ⟨c, hc, rfl⟩)
  rintro c _ rfl
  exact reruns_content book c

end Compiling

end TreeGrammar
