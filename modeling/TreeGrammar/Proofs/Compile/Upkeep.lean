/-
What a session keeps, whatever comes of a run.

`TreeGrammar.Proofs.Compile.Run` follows the runs that succeed. A session outlives a
failure, though, and goes on with the numbers drawn and the tables kept until then, so
something has to be said of every run. `KeepsOrder` says it: the tables that a session
keeps go on keeping the rules, on numbers that have been drawn, and so does what the run
yields if it yields anything. There is one lemma a step, and from these one a term, one
a reference and one a pattern.
-/
import TreeGrammar.Proofs.Compile.Pattern

set_option autoImplicit false

namespace TreeGrammar

open Compiling

/-! ## Tables on numbers that have been drawn -/

namespace Automaton

/-- The table keeps the rules and has **no number beyond** `n`. -/
structure Orderly (n : Nat) (a : Automaton) : Prop where
  wellFormed : a.WellFormed
  within : a.Within n

/-- What is orderly within a number is so within a greater one. Tables stay orderly
while more numbers are drawn for others. -/
theorem Orderly.mono {n m : Nat} {a : Automaton} (h : a.Orderly n) (hnm : n ≤ m) : a.Orderly m :=
  ⟨h.wellFormed, h.within.mono hnm⟩

end Automaton

/-- What an operator makes after `n` numbers have been drawn is orderly, and draws only
further numbers. -/
structure Built.Orderly (n : Nat) (b : Built) : Prop where
  le_drawn : n ≤ b.drawn
  automaton : b.automaton.Orderly b.drawn

namespace Automaton.Orderly

variable {n : Nat} {a b : Automaton}

theorem emptyWord (n : Nat) : Automaton.emptyWord.Orderly n :=
  ⟨wellFormed_blank.optional, (within_blank n).optional⟩

theorem single (x : Token) (n : Nat) : (Automaton.single x).Orderly n :=
  ⟨wellFormed_single x, within_single x n⟩

/-- A copy lives on numbers of its own, whatever those of the table are. -/
theorem copy {m : Nat} (h : a.Orderly m) (n : Nat) : (Automaton.copy n a).Orderly n :=
  ⟨le_drawn_copy a n, h.wellFormed.copy n, within_copy a n⟩

/-- The operands may share states, or be one and the same table. The second one is
copied where it shares a state with the first. -/
theorem append (ha : a.Orderly n) (hb : b.Orderly n) : (Automaton.append n a b).Orderly n where
  le_drawn := Nat.le_of_lt (lt_drawn_append n a b)
  automaton :=
    ⟨ha.wellFormed.append hb.wellFormed ha.within hb.within,
      within_append ha.wellFormed hb.wellFormed ha.within hb.within⟩

/-- One orderly table or another is orderly: the union keeps the rules, and its numbers
have all been drawn. -/
theorem merge (ha : a.Orderly n) (hb : b.Orderly n) : (Automaton.merge n a b).Orderly n where
  le_drawn := le_drawn_merge n a b
  automaton := ⟨ha.wellFormed.merge hb.wellFormed ha.within, within_merge ha.within hb.within⟩

/-- An orderly table made optional is orderly, and on the same numbers. -/
theorem optional (h : a.Orderly n) : a.optional.Orderly n :=
  ⟨h.wellFormed.optional, h.within.optional⟩

/-- At least once keeps a table orderly, with one number more. -/
theorem plus (h : a.Orderly n) : (Automaton.plus n a).Orderly n where
  le_drawn := Nat.le_succ n
  automaton := ⟨h.wellFormed.plus h.within, within_plus h.within⟩

theorem kleene (h : a.Orderly n) : (Automaton.kleene n a).Orderly n where
  le_drawn := Nat.le_succ n
  automaton := by
    rw [kleene_eq]
    exact h.plus.automaton.optional

end Automaton.Orderly

/-- The tables that the session keeps are orderly. -/
def Session.Orderly (s : Session) : Prop :=
  ∀ name a, s.finished.get? name = some a → a.Orderly s.drawn

/-- A new session has nothing kept that could break the rules. -/
theorem Session.orderly_new : Session.Orderly {} := fun _ _ h => absurd h (by simp)

/-- A session may keep **one more orderly table**. It is the step in which a definition
is finished. -/
theorem Session.Orderly.insert {s : Session} {name : String} {a : Automaton} (hs : s.Orderly)
    (ha : a.Orderly s.drawn) : Session.Orderly { s with finished := s.finished.insert name a } := by
  intro other b hb
  rcases OrderedTable.eq_or_of_get?_insert hb with ⟨-, rfl⟩ | hold
  · exact ha
  · exact hs other b hold

namespace Compiling

/-! ## Steps -/

/-- From a session in order that has drawn `n` numbers the step leads to a session in
order, **whether it succeeds or fails**, and what it yields satisfies the postcondition
at the number drawn by then. -/
def KeepsOrder {α : Type} (n : Nat) (m : Compiling α) (post : Nat → α → Prop) : Prop :=
  ∀ s result s', s.Orderly → n ≤ s.drawn → m.run.run s = (result, s') →
    s'.Orderly ∧ s.drawn ≤ s'.drawn ∧ ∀ x, result = .ok x → post s'.drawn x

variable {α β : Type} {n : Nat} {post : Nat → β → Prop}

/-- A result keeps order if what is asked of it holds from here on. -/
theorem keepsOrder_pure {x : β} (h : ∀ k, n ≤ k → post k x) : KeepsOrder n (pure x) post := by
  intro s result s' hs hn hrun
  have heq : ((Except.ok x, s) : Except Failure β × Session) = (result, s') := hrun
  rw [Prod.mk.injEq] at heq
  obtain ⟨rfl, rfl⟩ := heq
  refine ⟨hs, Nat.le_refl _, fun y hy => ?_⟩
  rw [← Except.ok.inj hy]
  exact h s.drawn hn

/-- Steps that keep order do so one after the other, the second **from the number the
first has come to**. -/
theorem keepsOrder_bind {m : Compiling α} {f : α → Compiling β} {mid : Nat → α → Prop}
    (hm : KeepsOrder n m mid) (hf : ∀ x k, n ≤ k → mid k x → KeepsOrder k (f x) post) :
    KeepsOrder n (m >>= f) post := by
  intro s result s' hs hn hrun
  rw [ExceptT.run_bind, StateT.run_bind] at hrun
  cases hfirst : m.run.run s with
  | mk r s₁ =>
      obtain ⟨hs₁, hle, hmid⟩ := hm s r s₁ hs hn hfirst
      rw [hfirst] at hrun
      cases r with
      | error e =>
          -- the second step is not taken, and the session stays as the first one left it
          have heq : ((Except.error e, s₁) : Except Failure β × Session) = (result, s') := hrun
          rw [Prod.mk.injEq] at heq
          obtain ⟨rfl, rfl⟩ := heq
          exact ⟨hs₁, hle, fun y hy => absurd hy (by simp)⟩
      | ok x =>
          have hnext := hf x s₁.drawn (Nat.le_trans hn hle) (hmid x rfl)
          obtain ⟨hs', hle', hpost⟩ := hnext s₁ result s' hs₁ (Nat.le_refl _) hrun
          exact ⟨hs', Nat.le_trans hle hle', hpost⟩

/-- A session that is looked at is orderly, which is how kept tables are known to be. -/
theorem keepsOrder_get :
    KeepsOrder n (getThe Session : Compiling Session) fun k s => s.Orderly ∧ s.drawn = k := by
  intro s result s' hs hn hrun
  have heq : ((Except.ok s, s) : Except Failure Session × Session) = (result, s') := hrun
  rw [Prod.mk.injEq] at heq
  obtain ⟨rfl, rfl⟩ := heq
  refine ⟨hs, Nat.le_refl _, fun y hy => ?_⟩
  rw [← Except.ok.inj hy]
  exact ⟨hs, rfl⟩

/-- A change of the session keeps order if it keeps the session orderly and draws
nothing. Setting what is in progress and noting a warning are changes of this sort. -/
theorem keepsOrder_modify {f : Session → Session}
    (h : ∀ s, s.Orderly → n ≤ s.drawn → (f s).Orderly ∧ (f s).drawn = s.drawn) :
    KeepsOrder n (modifyThe Session f : Compiling PUnit) fun _ _ => True := by
  intro s result s' hs hn hrun
  have heq : ((Except.ok PUnit.unit, f s) : Except Failure PUnit × Session) = (result, s') := hrun
  rw [Prod.mk.injEq] at heq
  obtain ⟨rfl, rfl⟩ := heq
  obtain ⟨horderly, hdrawn⟩ := h s hs hn
  exact ⟨horderly, Nat.le_of_eq hdrawn.symm, fun _ _ => trivial⟩

/-- A step that leaves the session as it is. -/
theorem keepsOrder_of_unchanged {m : Compiling β}
    (h : ∀ s, (m.run.run s).2 = s ∧ ∀ x, (m.run.run s).1 = .ok x → post s.drawn x) :
    KeepsOrder n m post := by
  intro s result s' hs _ hrun
  obtain ⟨hsame, hpost⟩ := h s
  rw [hrun] at hsame hpost
  subst hsame
  exact ⟨hs, Nat.le_refl _, hpost⟩

/-- A failure keeps order whatever is asked of results, since there is none. -/
theorem keepsOrder_failHere (cause : CompileCause) :
    KeepsOrder n (failHere cause : Compiling β) post := by
  refine keepsOrder_of_unchanged fun s => ⟨rfl, fun x h => ?_⟩
  cases h

theorem keepsOrder_ofExcept (e : Except Failure β) : KeepsOrder n (ofExcept e) fun _ _ => True := by
  cases e with
  | ok x => exact keepsOrder_pure fun _ _ => trivial
  | error e =>
      refine keepsOrder_of_unchanged fun s => ⟨rfl, fun x h => ?_⟩
      cases h

theorem keepsOrder_orFailHere (e : Except CompileCause β) :
    KeepsOrder n (orFailHere e) fun _ _ => True := by
  cases e with
  | ok x => exact keepsOrder_pure fun _ _ => trivial
  | error cause => exact keepsOrder_failHere cause

/-- An operator draws from the session and leaves the tables that are kept alone. The
operator is used at the counter of the session, which is never below the one it was
started with. -/
theorem keepsOrder_build {f : Nat → Built} (h : ∀ k, n ≤ k → (f k).Orderly k) :
    KeepsOrder n (build f) fun k a => a.Orderly k := by
  intro s result s' hs hn hrun
  have heq : ((Except.ok (f s.drawn).automaton, afterBuild s (f s.drawn)) :
      Except Failure Automaton × Session) = (result, s') := hrun
  rw [Prod.mk.injEq] at heq
  obtain ⟨rfl, rfl⟩ := heq
  have hbuilt := h s.drawn hn
  refine ⟨?_, hbuilt.le_drawn, fun y hy => ?_⟩
  · intro name a ha
    exact (hs name a ha).mono hbuilt.le_drawn
  · rw [← Except.ok.inj hy]
    exact hbuilt.automaton

/-! ## Terms and references -/

/-- Blocks that are compiled one by one, each put to those before. By induction on the
blocks that are left. -/
theorem keepsOrder_blocks {put : Nat → Automaton → Automaton → Built}
    {resolve : String → Compiling Automaton} {group : List Term → Term}
    {loop : Automaton → List Term → Compiling Automaton} (hloop : BlockLoop resolve group loop put)
    (hput : ∀ {k a b}, a.Orderly k → b.Orderly k → (put k a b).Orderly k) {rest : List Term}
    (hblocks : ∀ t ∈ rest, ∀ n, KeepsOrder n (term resolve t) fun k a => a.Orderly k)
    {before : Automaton} (hbefore : before.Orderly n) :
    KeepsOrder n (loop before rest) fun k a => a.Orderly k := by
  induction rest generalizing n before with
  | nil =>
      rw [hloop.nil]
      exact keepsOrder_pure fun k hk => hbefore.mono hk
  | cons t rest ih =>
      rw [hloop.cons]
      apply keepsOrder_bind (hblocks t List.mem_cons_self n)
      intro b k hk hb
      apply keepsOrder_bind (keepsOrder_build fun k' hk' => ?_)
      · intro both k' _ hboth
        exact ih (fun t' ht' => hblocks t' (List.mem_cons_of_mem t ht')) hboth
      · exact hput (hbefore.mono (Nat.le_trans hk hk')) (hb.mono hk')

/-- A term keeps order **if its references do**. By induction on the term, with one case
for each operator. -/
theorem keepsOrder_term {resolve : String → Compiling Automaton}
    (hresolve : ∀ name n, KeepsOrder n (resolve name) fun k a => a.Orderly k) (t : Term) (n : Nat) :
    KeepsOrder n (term resolve t) fun k a => a.Orderly k := by
  -- numbers are drawn between the operands and the operator, so orderly operands
  -- have to stay so
  match t with
  | .token x =>
      rw [term]
      exact keepsOrder_pure fun k _ => .single x k
  | .sequence [] =>
      rw [term]
      exact keepsOrder_pure fun k _ => .emptyWord k
  | .sequence (block :: rest) =>
      rw [term]
      apply keepsOrder_bind (keepsOrder_term hresolve block n)
      intro first k _ hfirst
      exact keepsOrder_blocks (blockLoop_sequence resolve) Automaton.Orderly.append
        (fun t ht => keepsOrder_term hresolve t) hfirst
  | .choice [] =>
      rw [term]
      exact keepsOrder_failHere .emptyChoice
  | .choice (block :: rest) =>
      rw [term]
      apply keepsOrder_bind (keepsOrder_term hresolve block n)
      intro first k _ hfirst
      exact keepsOrder_blocks (blockLoop_choice resolve) Automaton.Orderly.merge
        (fun t ht => keepsOrder_term hresolve t) hfirst
  | .optional block =>
      rw [term]
      apply keepsOrder_bind (keepsOrder_term hresolve block n)
      intro a k _ ha
      exact keepsOrder_pure fun k' hk' => (ha.mono hk').optional
  | .kleene block =>
      rw [term]
      apply keepsOrder_bind (keepsOrder_term hresolve block n)
      intro a k _ ha
      exact keepsOrder_build fun k' hk' => (ha.mono hk').kleene
  | .plus block =>
      rw [term]
      apply keepsOrder_bind (keepsOrder_term hresolve block n)
      intro a k _ ha
      exact keepsOrder_build fun k' hk' => (ha.mono hk').plus
  | .ref name =>
      rw [term]
      exact hresolve name n
termination_by t
decreasing_by
  all_goals first
    | (have hsize := List.sizeOf_lt_of_mem ht; simp; omega)
    | (simp; omega)
    | simp

/-- A reference keeps order, also where its definition **fails half-way**. The induction
is that of `resolve`: on the definitions that are not being compiled. -/
theorem keepsOrder_resolve (book : Rulebook) (path : List String) (name : String) (n : Nat) :
    KeepsOrder n (resolve book path name) fun k a => a.Orderly k := by
  induction hm : unseen book.definitions.keys path using Nat.strong_induction_on
    generalizing path name n with
  | _ m ih =>
    rw [resolve]
    apply keepsOrder_bind keepsOrder_get
    rintro s k - ⟨hs, rfl⟩
    split
    · next kept hkept =>
      exact keepsOrder_build fun k' _ => (hs name kept hkept).copy k'
    · split
      · exact keepsOrder_failHere _
      · next hpath =>
        split
        · exact keepsOrder_failHere _
        · next body hbody =>
          -- the definition joins those being compiled, so fewer are left for the references
          -- in it
          have hless : unseen book.definitions.keys (path ++ [name]) < m := by
            rw [← hm]
            exact unseen_append_lt hbody hpath
          refine keepsOrder_bind (keepsOrder_modify ?_) ?_
          · exact fun s hs _ => ⟨hs, rfl⟩
          intro _ k₁ _ _
          apply keepsOrder_bind (keepsOrder_ofExcept _)
          rintro content k₂ - -
          split
          · exact keepsOrder_failHere _
          · next t =>
            have hterm := keepsOrder_term
              (fun other n => ih _ hless (path ++ [name]) other n rfl) t k₂
            apply keepsOrder_bind hterm
            intro a k₃ _ ha
            -- keeping the table is the one step that adds to what the session keeps
            have hkeep : ∀ s : Session, s.Orderly → k₃ ≤ s.drawn →
                Session.Orderly
                    { s with inProgress := path, finished := s.finished.insert name a } ∧
                  ({ s with inProgress := path, finished := s.finished.insert name a } :
                    Session).drawn = s.drawn :=
              fun s hs hk => ⟨hs.insert (ha.mono hk), rfl⟩
            apply keepsOrder_bind (keepsOrder_modify hkeep)
            intro _ k₄ hk₄ _
            exact keepsOrder_pure fun k₅ hk₅ => ha.mono (Nat.le_trans hk₄ hk₅)

/-! ## Contents and patterns -/

variable (book : Rulebook)

/-- A bounded term gives an orderly table, or none. -/
theorem keepsOrder_boundedTerm (t : Term) (n : Nat) :
    KeepsOrder n (boundedTerm book t) fun k a => a.Orderly k := by
  rw [boundedTerm]
  apply keepsOrder_bind keepsOrder_get
  rintro s k - -
  apply keepsOrder_bind (keepsOrder_term (keepsOrder_resolve book s.inProgress) t k)
  intro a k₁ _ ha
  apply keepsOrder_bind (keepsOrder_ofExcept _)
  intro _ k₂ hk₂ _
  exact keepsOrder_pure fun k₃ hk₃ => ha.mono (Nat.le_trans hk₂ hk₃)

/-- Blocks give orderly tables. The bound on numbers is raised as they are drawn, and
what is within a lower one stays so. -/
theorem keepsOrder_blocksOf (ts : List Term) (n : Nat) :
    KeepsOrder n (blocks book ts) fun k as => ∀ a ∈ as, a.Orderly k := by
  induction ts generalizing n with
  | nil =>
      rw [blocks]
      exact keepsOrder_pure fun _ _ a ha => absurd ha List.not_mem_nil
  | cons t ts ih =>
      rw [blocks]
      apply keepsOrder_bind (keepsOrder_boundedTerm book t n)
      intro a k _ ha
      apply keepsOrder_bind (ih k)
      intro as k₁ hk₁ has
      refine keepsOrder_pure fun k₂ hk₂ b hb => ?_
      rcases List.mem_cons.mp hb with rfl | hb
      · exact ha.mono (Nat.le_trans hk₁ hk₂)
      · exact (has b hb).mono hk₂

theorem keepsOrder_content (c : Content) (n : Nat) :
    KeepsOrder n (content book c) fun k c => ∀ a ∈ c.automata, a.Orderly k := by
  cases c with
  | term t =>
      rw [content]
      apply keepsOrder_bind (keepsOrder_boundedTerm book t n)
      intro a k _ ha
      refine keepsOrder_pure fun k₁ hk₁ b hb => ?_
      rw [List.mem_singleton.mp hb]
      exact ha.mono hk₁
  | interleave ts =>
      rw [content]
      apply keepsOrder_bind (keepsOrder_blocksOf book ts n)
      intro as k _ has
      exact keepsOrder_pure fun k₁ hk₁ b hb => (has b hb).mono hk₁

/-- Finding out what a pattern stands for as a whole content does not touch
the session. -/
theorem keepsOrder_wholeContent (followed : List String) (p : Pattern) (n : Nat) :
    KeepsOrder n (wholeContent book followed p) fun _ _ => True := by
  induction hm : unseen book.definitions.keys followed using Nat.strong_induction_on
    generalizing followed p n with
  | _ m ih =>
    rw [wholeContent.eq_def]
    split
    · next name =>
      split
      · exact keepsOrder_failHere _
      · next hfollowed =>
        split
        · exact keepsOrder_failHere _
        · next body hbody =>
          apply keepsOrder_bind (keepsOrder_orFailHere _)
          rintro normal k - -
          split
          · next other =>
            have hless : unseen book.definitions.keys (followed ++ [name]) < m := by
              rw [← hm]
              exact unseen_append_lt hbody hfollowed
            exact ih _ hless (followed ++ [name]) (.ref other) k rfl
          · exact keepsOrder_pure fun _ _ => trivial
          · exact keepsOrder_pure fun _ _ => trivial
    · exact keepsOrder_pure fun _ _ => trivial

/-- Compiling a pattern **keeps order**, and the tables that it makes are orderly. It
covers runs that fail as well, since a failure draws numbers, too. -/
theorem keepsOrder_pattern (p : Pattern) (n : Nat) :
    KeepsOrder n (pattern book p) fun k c => ∀ a ∈ c.automata, a.Orderly k := by
  rw [pattern]
  apply keepsOrder_bind (keepsOrder_orFailHere _)
  intro normal k _ _
  apply keepsOrder_bind (keepsOrder_wholeContent book [] normal k)
  intro whole k₁ _ _
  apply keepsOrder_bind (keepsOrder_ofExcept _)
  intro c k₂ _ _
  exact keepsOrder_content book c k₂

end Compiling

end TreeGrammar
