/-
What the steps of a compilation yield.

A step may fail, and the session goes on either way; the theorems about compiled
contents are about steps that went well. `Yields` says that a step did, with a result
and a session, and each kind of step has one lemma that says when. The steps that do not
touch the session, normalizing and lowering, are taken apart in the second half.
-/
import TreeGrammar.Compile.Content
import TreeGrammar.Proofs.Pattern.Normal

set_option autoImplicit false

namespace TreeGrammar

/-- A definition that joins the path is one less **that is left**: what follows
references is recursive on these. -/
theorem unseen_append_lt {ν : Type} {defs : OrderedTable String ν} {path : List String}
    {name : String} {body : ν} (hdef : defs.get? name = some body) (hpath : name ∉ path) :
    unseen defs.keys (path ++ [name]) < unseen defs.keys path :=
  unseen_lt (fun _ h => List.mem_append_left _ h)
    (OrderedTable.mem_keys_of_get? hdef) hpath (by simp)

/-! ## Results of runs -/

namespace Compiling

variable {α β : Type} {s s' : Session}

/-- From the first session the step **yields** the result and the second session. -/
def Yields (m : Compiling α) (s : Session) (x : α) (s' : Session) : Prop :=
  m.run.run s = (.ok x, s')

/-- A result that is there already is yielded, and the session stays. -/
theorem yields_pure {x y : α} : (pure x : Compiling α).Yields s y s' ↔ y = x ∧ s' = s := by
  show ((Except.ok x, s) : Except Failure α × Session) = (.ok y, s') ↔ _
  rw [Prod.mk.injEq, Except.ok.injEq]
  exact ⟨fun h => ⟨h.1.symm, h.2.symm⟩, fun h => ⟨h.1.symm, h.2.symm⟩⟩

/-- One step after another yields what the second makes of what the first **yielded**.
Runs are taken apart at their steps with this lemma, so that the definition of the monad
is never opened. -/
theorem yields_bind {m : Compiling α} {f : α → Compiling β} {y : β} :
    (m >>= f).Yields s y s' ↔ ∃ x s₁, m.Yields s x s₁ ∧ (f x).Yields s₁ y s' := by
  unfold Yields
  rw [ExceptT.run_bind, StateT.run_bind]
  cases hm : m.run.run s with
  | mk r s₁ =>
      cases r with
      | error e =>
          show ((Except.error e, s₁) : Except Failure β × Session) = (.ok y, s') ↔ _
          refine ⟨fun h => absurd (congrArg Prod.fst h) (by simp), ?_⟩
          rintro ⟨x, s₂, hx, -⟩
          exact absurd (congrArg Prod.fst hx) (by simp)
      | ok x =>
          show (f x).run.run s₁ = (.ok y, s') ↔ _
          constructor
          · intro h
            exact ⟨x, s₁, rfl, h⟩
          · rintro ⟨x', s₂, hx, h⟩
            rw [Prod.mk.injEq, Except.ok.injEq] at hx
            obtain ⟨rfl, rfl⟩ := hx
            exact h

theorem yields_get {x : Session} :
    (getThe Session : Compiling Session).Yields s x s' ↔ x = s ∧ s' = s := by
  show ((Except.ok s, s) : Except Failure Session × Session) = (.ok x, s') ↔ _
  rw [Prod.mk.injEq, Except.ok.injEq]
  exact ⟨fun h => ⟨h.1.symm, h.2.symm⟩, fun h => ⟨h.1.symm, h.2.symm⟩⟩

/-- Changing the session yields nothing but the change. -/
theorem yields_modify {f : Session → Session} {x : PUnit} :
    (modifyThe Session f : Compiling PUnit).Yields s x s' ↔ s' = f s := by
  show ((Except.ok PUnit.unit, f s) : Except Failure PUnit × Session) = (.ok x, s') ↔ _
  rw [Prod.mk.injEq]
  exact ⟨fun h => h.2.symm, fun h => ⟨rfl, h.symm⟩⟩

/-- Failing yields nothing. -/
theorem not_yields_failHere {cause : CompileCause} {x : α} :
    ¬ (failHere cause : Compiling α).Yields s x s' := by
  intro h
  have hrun : (failHere cause : Compiling α).run.run s
      = (.error (.compile { cause, location := s.location }), s) := rfl
  rw [Yields, hrun, Prod.mk.injEq] at h
  exact absurd h.1 (by simp)

/-- A check yields exactly if it succeeds, and never touches the session. -/
theorem yields_ofExcept {e : Except Failure α} {x : α} :
    (ofExcept e).Yields s x s' ↔ e = .ok x ∧ s' = s := by
  cases e with
  | ok y =>
      rw [ofExcept, yields_pure, Except.ok.injEq, eq_comm (a := x)]
  | error e =>
      constructor
      · intro h
        have hrun : (ofExcept (.error e) : Compiling α).run.run s = (.error e, s) := rfl
        rw [Yields, hrun, Prod.mk.injEq] at h
        exact absurd h.1 (by simp)
      · rintro ⟨h, -⟩
        exact absurd h (by simp)

theorem yields_orFailHere {e : Except CompileCause α} {x : α} :
    (orFailHere e).Yields s x s' ↔ e = .ok x ∧ s' = s := by
  cases e with
  | ok y =>
      rw [orFailHere, yields_pure, Except.ok.injEq, eq_comm (a := x)]
  | error e =>
      refine ⟨fun h => absurd h not_yields_failHere, ?_⟩
      rintro ⟨h, -⟩
      exact absurd h (by simp)

/-- The session after an operator has drawn from it. -/
def afterBuild (s : Session) (b : Built) : Session :=
  { s with
    drawn := b.drawn
    warnings := s.warnings ++ b.collisions.map (Warning.mk s.location) }

/-- Building yields the table, and the session moves on by what was drawn and lost.
Collisions become warnings at the current location. -/
theorem yields_build {f : Nat → Built} {a : Automaton} :
    (build f).Yields s a s' ↔ a = (f s.drawn).automaton ∧ s' = afterBuild s (f s.drawn) := by
  show ((Except.ok (f s.drawn).automaton, afterBuild s (f s.drawn)) :
    Except Failure Automaton × Session) = (.ok a, s') ↔ _
  rw [Prod.mk.injEq, Except.ok.injEq]
  exact ⟨fun h => ⟨h.1.symm, h.2.symm⟩, fun h => ⟨h.1.symm, h.2.symm⟩⟩

/-- One step more that only says what the result becomes. -/
theorem yields_bind_pure {m : Compiling α} {f : α → β} {y : β} :
    (m >>= fun x => pure (f x)).Yields s y s' ↔ ∃ x, m.Yields s x s' ∧ y = f x := by
  rw [yields_bind]
  constructor
  · rintro ⟨x, s₁, hx, h⟩
    rw [yields_pure] at h
    obtain ⟨rfl, rfl⟩ := h
    exact ⟨x, hx, rfl⟩
  · rintro ⟨x, hx, rfl⟩
    exact ⟨x, s', hx, yields_pure.mpr ⟨rfl, rfl⟩⟩

/-- One step more that is an operator. Both together are the last two steps of compiling
an operator. -/
theorem yields_bind_build {m : Compiling α} {f : α → Nat → Built} {a : Automaton} :
    (m >>= fun x => build (f x)).Yields s a s' ↔ ∃ x s₁, m.Yields s x s₁ ∧
      a = (f x s₁.drawn).automaton ∧ s' = afterBuild s₁ (f x s₁.drawn) := by
  simp only [yields_bind, yields_build]

/-! ## Terms, step by step -/

/-- The terms of a group are compiled **one by one**: the loop puts each to
those before. -/
structure BlockLoop (resolve : String → Compiling Automaton) (group : List Term → Term)
    (loop : Automaton → List Term → Compiling Automaton)
    (put : Nat → Automaton → Automaton → Built) : Prop where
  first : ∀ t rest, term resolve (group (t :: rest)) = term resolve t >>=
    fun first => loop first rest
  nil : ∀ before, loop before [] = pure before
  cons : ∀ before t rest, loop before (t :: rest) =
    term resolve t >>= fun b => build (fun drawn => put drawn before b) >>=
      fun both => loop both rest

section Steps

variable {resolve : String → Compiling Automaton} {group : List Term → Term}
  {loop : Automaton → List Term → Compiling Automaton}
  {put : Nat → Automaton → Automaton → Built} {before a : Automaton} {t : Term}
  {rest : List Term}

/-- A sequence is compiled by a loop that appends. It takes its blocks from the left. -/
theorem blockLoop_sequence (resolve : String → Compiling Automaton) :
    BlockLoop resolve .sequence (sequence resolve) Automaton.append :=
  ⟨fun t rest => by rw [term], fun before => by rw [sequence],
    fun before t rest => by rw [sequence]⟩

/-- A choice is compiled by a loop that merges. What is proved for loops over blocks
holds of both. -/
theorem blockLoop_choice (resolve : String → Compiling Automaton) :
    BlockLoop resolve .choice (choice resolve) Automaton.merge :=
  ⟨fun t rest => by rw [term], fun before => by rw [choice], fun before t rest => by rw [choice]⟩

/-- The first block of a group is compiled by itself, and the loop goes on from its
table. A group of one block is therefore compiled as the block is. -/
theorem BlockLoop.yields_first (hloop : BlockLoop resolve group loop put) :
    (term resolve (group (t :: rest))).Yields s a s' ↔
      ∃ first s₁, (term resolve t).Yields s first s₁ ∧ (loop first rest).Yields s₁ a s' := by
  rw [hloop.first, yields_bind]

/-- A loop without blocks yields the table it was given. -/
theorem BlockLoop.yields_nil (hloop : BlockLoop resolve group loop put) :
    (loop before []).Yields s a s' ↔ a = before ∧ s' = s := by
  rw [hloop.nil, yields_pure]

/-- Any other compiles its first block, puts it to the table so far, and goes on. These
two equations are all that later proofs use of the loops. -/
theorem BlockLoop.yields_cons (hloop : BlockLoop resolve group loop put) :
    (loop before (t :: rest)).Yields s a s' ↔ ∃ b s₁, (term resolve t).Yields s b s₁ ∧
      (loop (put s₁.drawn before b).automaton rest).Yields (afterBuild s₁ (put s₁.drawn before b)) a
        s' := by
  rw [hloop.cons, yields_bind]
  simp only [yields_bind, yields_build]
  constructor
  · rintro ⟨b, s₁, hb, _, _, ⟨rfl, rfl⟩, h⟩
    exact ⟨b, s₁, hb, h⟩
  · rintro ⟨b, s₁, hb, h⟩
    exact ⟨b, s₁, hb, _, _, ⟨rfl, rfl⟩, h⟩

theorem yields_token {x : Token} : (term resolve (.token x)).Yields s a s' ↔
    a = .single x ∧ s' = s := by
  rw [term, yields_pure]

theorem yields_emptySequence : (term resolve (.sequence [])).Yields s a s' ↔
    a = .emptyWord ∧ s' = s := by
  rw [term, yields_pure]

/-- A choice of nothing never yields: there would be no table for it. -/
theorem not_yields_emptyChoice : ¬ (term resolve (.choice [])).Yields s a s' := by
  rw [term]
  exact not_yields_failHere

theorem yields_optional : (term resolve (.optional t)).Yields s a s' ↔
    ∃ b, (term resolve t).Yields s b s' ∧ a = b.optional := by
  rw [term_optional, yields_bind_pure]

theorem yields_kleene : (term resolve (.kleene t)).Yields s a s' ↔
    ∃ b s₁, (term resolve t).Yields s b s₁ ∧ a = (b.kleene s₁.drawn).automaton ∧
      s' = afterBuild s₁ (b.kleene s₁.drawn) := by
  rw [term, yields_bind_build]

theorem yields_plus : (term resolve (.plus t)).Yields s a s' ↔
    ∃ b s₁, (term resolve t).Yields s b s₁ ∧ a = (b.plus s₁.drawn).automaton ∧
      s' = afterBuild s₁ (b.plus s₁.drawn) := by
  rw [term, yields_bind_build]

end Steps

/-! ## References, step by step -/

section References

variable {book : Rulebook} {path : List String} {name : String} {a : Automaton}

/-- A definition that is finished is copied. The copy is what keeps two uses of one
definition apart. -/
theorem yields_resolve_of_kept {kept : Automaton} (hkept : s.finished.get? name = some kept) :
    (resolve book path name).Yields s a s' ↔
      a = (Automaton.copy s.drawn kept).automaton ∧
      s' = afterBuild s (Automaton.copy s.drawn kept) := by
  rw [resolve, yields_bind]
  simp only [yields_get]
  constructor
  · rintro ⟨_, _, ⟨rfl, rfl⟩, h⟩
    simp only [hkept] at h
    exact yields_build.mp h
  · intro h
    refine ⟨s, s, ⟨rfl, rfl⟩, ?_⟩
    simp only [hkept]
    exact yields_build.mpr h

/-- A definition that is not finished is compiled **as its term is**, unless it is being
compiled already, and kept. -/
theorem yields_resolve_of_new (hnew : s.finished.get? name = none) :
    (resolve book path name).Yields s a s' ↔ name ∉ path ∧
      ∃ body t s₁, book.definitions.get? name = some body ∧
        Content.ofPattern book.limits body = .ok (.term t) ∧
        (term (resolve book (path ++ [name])) t).Yields { s with inProgress := path ++ [name] }
          a s₁ ∧
        s' = { s₁ with inProgress := path, finished := s₁.finished.insert name a } := by
  rw [resolve, yields_bind]
  simp only [yields_get]
  constructor
  -- from a run that yields, each check has passed, since a failure would have ended it
  · rintro ⟨_, _, ⟨rfl, rfl⟩, h⟩
    simp only [hnew] at h
    split at h
    · exact absurd h not_yields_failHere
    · next hpath =>
      refine ⟨hpath, ?_⟩
      split at h
      · exact absurd h not_yields_failHere
      · next body hbody =>
        rw [yields_bind] at h
        obtain ⟨_, s₁, hs₁, h⟩ := h
        rw [yields_modify] at hs₁
        rw [yields_bind] at h
        obtain ⟨content, s₂, hcontent, h⟩ := h
        rw [yields_ofExcept] at hcontent
        obtain ⟨hcontent, rfl⟩ := hcontent
        split at h
        · exact absurd h not_yields_failHere
        · next t =>
          rw [yields_bind] at h
          obtain ⟨b, s₃, hb, h⟩ := h
          rw [yields_bind] at h
          obtain ⟨_, s₄, hs₄, h⟩ := h
          rw [yields_modify] at hs₄
          rw [yields_pure] at h
          obtain ⟨rfl, rfl⟩ := h
          rw [hs₁] at hb
          exact ⟨body, t, s₃, hbody, hcontent, hb, hs₄⟩
  -- conversely the steps are put together in the same order
  · rintro ⟨hpath, body, t, s₁, hbody, hcontent, hterm, rfl⟩
    refine ⟨s, s, ⟨rfl, rfl⟩, ?_⟩
    simp only [hnew]
    rw [dif_neg hpath]
    split
    · next hnone =>
      rw [hbody] at hnone
      exact absurd hnone (by simp)
    · next body' hbody' =>
      rw [hbody, Option.some.injEq] at hbody'
      subst hbody'
      rw [yields_bind]
      refine ⟨⟨⟩, _, yields_modify.mpr rfl, ?_⟩
      rw [yields_bind]
      refine ⟨_, _, yields_ofExcept.mpr ⟨hcontent, rfl⟩, ?_⟩
      dsimp only
      rw [yields_bind]
      refine ⟨a, s₁, hterm, ?_⟩
      rw [yields_bind]
      exact ⟨⟨⟩, _, yields_modify.mpr rfl, yields_pure.mpr ⟨rfl, rfl⟩⟩

end References

end Compiling

/-! ## Contents of patterns -/

namespace Term

/-- Patterns that are lowered one by one are read as terms one by one, if each is. It is
the list part of the next lemma, which is proved along with it. -/
theorem ofPatterns?_of_lowerAll {limits : Limits} {depth : Nat} {ps : List Pattern} {ts : List Term}
    (h : lowerAll limits depth ps = .ok ts)
    (hps : ∀ p ∈ ps, ∀ t, lower limits depth p = .ok t → ofPattern? p = some t) :
    ofPatterns? ps = some ts := by
  induction ps generalizing ts with
  | nil =>
      rw [lowerAll] at h
      rw [← Except.ok.inj h, ofPatterns?]
  | cons p ps ih =>
      rw [lowerAll] at h
      obtain ⟨t, ht, h⟩ := Pattern.bind_eq_ok h
      obtain ⟨rest, hrest, h⟩ := Pattern.bind_eq_ok h
      rw [← Except.ok.inj h, ofPatterns?, hps p List.mem_cons_self t ht,
        ih hrest fun q hq => hps q (List.mem_cons_of_mem p hq)]
      rfl

/-- A pattern that is lowered **reads as** the term it is lowered to. Reading is
lowering without its limits, which makes it easier to reason about. -/
theorem ofPattern?_of_lower (limits : Limits) (depth : Nat) (p : Pattern) (t : Term)
    (h : lower limits depth p = .ok t) : ofPattern? p = some t := by
  match p with
  | .token name =>
      rw [lower] at h
      obtain ⟨-, -, h⟩ := Pattern.bind_eq_ok h
      rw [← Except.ok.inj h, ofPattern?]
  | .ref name =>
      rw [lower] at h
      obtain ⟨-, -, h⟩ := Pattern.bind_eq_ok h
      rw [← Except.ok.inj h, ofPattern?]
  | .sequence blocks =>
      rw [lower] at h
      obtain ⟨-, -, h⟩ := Pattern.bind_eq_ok h
      obtain ⟨ts, hts, h⟩ := Pattern.bind_eq_ok h
      rw [← Except.ok.inj h, ofPattern?, ofPatterns?_of_lowerAll hts
        fun p hp t ht => ofPattern?_of_lower limits _ p t ht, Option.map_some]
  | .choice blocks =>
      rw [lower] at h
      obtain ⟨-, -, h⟩ := Pattern.bind_eq_ok h
      obtain ⟨ts, hts, h⟩ := Pattern.bind_eq_ok h
      rw [← Except.ok.inj h, ofPattern?, ofPatterns?_of_lowerAll hts
        fun p hp t ht => ofPattern?_of_lower limits _ p t ht, Option.map_some]
  | .optional block =>
      rw [lower] at h
      obtain ⟨-, -, h⟩ := Pattern.bind_eq_ok h
      obtain ⟨t, ht, h⟩ := Pattern.bind_eq_ok h
      rw [← Except.ok.inj h, ofPattern?, ofPattern?_of_lower limits _ block t ht, Option.map_some]
  | .kleene block =>
      rw [lower] at h
      obtain ⟨-, -, h⟩ := Pattern.bind_eq_ok h
      obtain ⟨t, ht, h⟩ := Pattern.bind_eq_ok h
      rw [← Except.ok.inj h, ofPattern?, ofPattern?_of_lower limits _ block t ht, Option.map_some]
  | .plus block =>
      rw [lower] at h
      obtain ⟨-, -, h⟩ := Pattern.bind_eq_ok h
      obtain ⟨t, ht, h⟩ := Pattern.bind_eq_ok h
      rw [← Except.ok.inj h, ofPattern?, ofPattern?_of_lower limits _ block t ht, Option.map_some]
  | .interleave blocks =>
      rw [lower] at h
      obtain ⟨-, -, h⟩ := Pattern.bind_eq_ok h
      exact absurd h Pattern.throw_ne_ok
termination_by p
decreasing_by
  all_goals first
    | (have hsize := List.sizeOf_lt_of_mem hp; simp; omega)
    | simp

end Term

/-- Success does not depend on what is made of failures. -/
theorem mapError_eq_ok {ε ε' α : Type} {f : ε → ε'} {e : Except ε α} {x : α}
    (h : e.mapError f = .ok x) : e = .ok x := by
  cases e with
  | ok y => rw [Except.ok.inj h]
  | error cause =>
      change Except.error (f cause) = .ok x at h
      exact absurd h (by simp)

namespace Content

/-- Regular content is what the **normal form reads as**. Lowering can be left out of
account from here on. -/
theorem ofPattern_eq_term {limits : Limits} {p : Pattern} {t : Term}
    (h : ofPattern limits p = .ok (.term t)) :
    ∃ normal, p.normalize = .ok normal ∧ Term.ofPattern? normal = some t := by
  rw [ofPattern] at h
  obtain ⟨normal, hnormal, h⟩ := Pattern.bind_eq_ok h
  refine ⟨normal, mapError_eq_ok hnormal, ?_⟩
  unfold ofNormal at h
  split at h
  · obtain ⟨-, -, h⟩ := Pattern.bind_eq_ok h
    obtain ⟨ts, -, h⟩ := Pattern.bind_eq_ok h
    exact absurd (Except.ok.inj h) (by simp)
  · obtain ⟨t', ht', h⟩ := Pattern.bind_eq_ok h
    rw [← Content.term.inj (Except.ok.inj h)]
    exact Term.ofPattern?_of_lower limits 0 normal t' ht'

end Content

/-! ## Contents, step by step -/

namespace Compiling

variable {book : Rulebook} {s s' : Session} {t : Term} {ts : List Term} {a : Automaton}
  {as : List Automaton} {x : Compiled}

/-- A bounded term yields what the term yields, **if the table is not too large**. The
number of its states is compared with the limit, and nothing else happens. -/
theorem yields_boundedTerm : (boundedTerm book t).Yields s a s' ↔
    (term (resolve book s.inProgress) t).Yields s a s' ∧
    book.limits.check .automatonStates a.stateCount = .ok () := by
  rw [boundedTerm, yields_bind]
  constructor
  · rintro ⟨_, s₀, hnow, h⟩
    rw [yields_get] at hnow
    obtain ⟨rfl, rfl⟩ := hnow
    rw [yields_bind] at h
    obtain ⟨b, s₁, hb, h⟩ := h
    rw [yields_bind] at h
    obtain ⟨_, s₂, hcheck, h⟩ := h
    rw [yields_ofExcept] at hcheck
    obtain ⟨hcheck, rfl⟩ := hcheck
    rw [yields_pure] at h
    obtain ⟨rfl, rfl⟩ := h
    exact ⟨hb, mapError_eq_ok hcheck⟩
  · rintro ⟨h, hcheck⟩
    refine ⟨s, s, yields_get.mpr ⟨rfl, rfl⟩,
      yields_bind.mpr ⟨a, s', h, yields_bind.mpr ⟨⟨⟩, s', ?_⟩⟩⟩
    rw [hcheck]
    exact ⟨yields_ofExcept.mpr ⟨rfl, rfl⟩, yields_pure.mpr ⟨rfl, rfl⟩⟩

theorem yields_blocks_nil : (blocks book []).Yields s as s' ↔ as = [] ∧ s' = s := by
  rw [blocks, yields_pure]

/-- Blocks are compiled from the left, each in the session that the last one left. The
size of each is checked before the next one is begun. -/
theorem yields_blocks_cons : (blocks book (t :: ts)).Yields s as s' ↔
    ∃ a s₁ rest, (boundedTerm book t).Yields s a s₁ ∧ (blocks book ts).Yields s₁ rest s' ∧
      as = a :: rest := by
  rw [blocks, yields_bind]
  simp only [yields_bind_pure, exists_and_left]

/-- A content of one term is compiled to one table. -/
theorem yields_content_term : (content book (.term t)).Yields s x s' ↔
    ∃ a, (boundedTerm book t).Yields s a s' ∧ x = .single a := by
  rw [content, yields_bind_pure]

/-- An interleave is compiled to the tables of its blocks. -/
theorem yields_content_interleave : (content book (.interleave ts)).Yields s x s' ↔
    ∃ as, (blocks book ts).Yields s as s' ∧ x = .interleave as := by
  rw [content, yields_bind_pure]

end Compiling

end TreeGrammar
