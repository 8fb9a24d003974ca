/-
A session that is used on after failures.

A failure leaves the names of the definitions in whose midst it came up among those
being compiled, and nothing takes them away again. A later pattern compiles all the same
exactly when it does in a new session, because what these names stand for cannot be
compiled at all. But where it fails, it may fail in another way: a fault inside one of
these definitions is not met any more, since the reference to it is taken for a cycle.
The fault is **the same sort** wherever the chain of definitions around it has none of
the names that were left behind (`Recurs`).
-/
import TreeGrammar.Proofs.Compile.Faults

set_option autoImplicit false

namespace TreeGrammar

open Automaton

variable {book : Rulebook} {path chain stuck : List String} {s : Session} {t : Term}
  {name : String} {σ : FailureSort}

/-! ## Terms that are not grounded -/

namespace Term

/-- Of terms that are not all grounded there is **a first** that is not. The terms
before it compile, so it is the one that a loop over all of them fails at. -/
theorem exists_first_not_grounded {ts : List Term} (h : ¬ ∀ t ∈ ts, ∃ k, t.Grounded book k) :
    ∃ done t rest, ts = done ++ t :: rest ∧ (∀ b ∈ done, ∃ k, b.Grounded book k) ∧
      ∀ k, ¬ t.Grounded book k := by
  have hsome : ∃ t ∈ ts, ¬ ∃ k, t.Grounded book k := by
    by_contra hnone
    exact h fun t ht => not_not.mp fun hk => hnone ⟨t, ht, hk⟩
  obtain ⟨done, t, rest, hsplit, hdone, ht⟩ := exists_first hsome
  exact ⟨done, t, rest, hsplit, fun b hb => not_not.mp (hdone b hb), not_exists.mp ht⟩

/-- If a definition is not grounded, then the term of its content is not: it would
ground the name at the next height. -/
theorem not_grounded_of_content {body : Pattern} (hdef : book.definitions.get? name = some body)
    (hname : ∀ k, ¬ (Term.ref name).Grounded book k)
    (hcontent : Content.ofPattern book.limits body = .ok (.term t)) : ∀ k, ¬ t.Grounded book k :=
  fun k hk => hname (k + 1) (.ref hdef hcontent hk)

end Term

namespace Compiling

variable {α β : Type} {m m' : Compiling α}

/-! ## The fault in a session that is stuck further out -/

/-- The first step, taken at the path, meets a fault inside the chain; the second, taken
where a session is stuck at more names besides, meets **the same sort of fault** if the
chain has none of these, and a cycle otherwise. -/
structure Recurs (book : Rulebook) (stuck path : List String) (m m' : Compiling α) (σ : FailureSort)
    (chain : List String) : Prop where
  faults : FaultsAt book path m σ chain
  recurs : chain.Disjoint stuck → FaultsAt book (stuck ++ path) m' σ chain
  cycles : ¬ chain.Disjoint stuck → ∃ chain', FaultsAt book (stuck ++ path) m'
      (.compile .cyclicReference) chain'

/-- What faults when its part does, wherever that is, recurs as its part does. -/
theorem Recurs.lift {n n' : Compiling β} (h : Recurs book stuck path m m' σ chain)
    (hfirst : ∀ {σ chain}, FaultsAt book path m σ chain → FaultsAt book path n σ chain)
    (hsecond : ∀ {σ chain}, FaultsAt book (stuck ++ path) m' σ chain →
      FaultsAt book (stuck ++ path) n' σ chain) :
    Recurs book stuck path n n' σ chain where
  faults := hfirst h.faults
  recurs hdisjoint := hsecond (h.recurs hdisjoint)
  cycles hmeets := (h.cycles hmeets).imp fun _ => hsecond

/-- A fault that is met before any definition is entered recurs. Nothing of the chain of
definitions is left to be met again. -/
theorem Recurs.of_nil (h : FaultsAt book path m σ []) (h' : FaultsAt book (stuck ++ path) m' σ []) :
    Recurs book stuck path m m' σ [] where
  faults := h
  recurs _ := h'
  cycles hmeets := absurd (List.disjoint_nil_left stuck) hmeets

/-- A term that is not grounded meets a fault that recurs **if the references in
it do**. By induction on the term: the fault is that of its first block that is
not grounded. -/
theorem exists_recurs_term
    (hresolve : ∀ name, (∀ k, ¬ (Term.ref name).Grounded book k) →
      ∃ σ chain, Recurs book stuck path (resolve book path name)
        (resolve book (stuck ++ path) name) σ chain)
    (t : Term) (ht : ∀ k, ¬ t.Grounded book k) :
    ∃ σ chain, Recurs book stuck path (term (resolve book path) t)
      (term (resolve book (stuck ++ path)) t) σ chain := by
  match t with
  | .token x => exact absurd (.token x) (ht 0)
  | .sequence ts =>
      have hts : ¬ ∀ t ∈ ts, ∃ k, t.Grounded book k := fun h => by
        obtain ⟨k, hk⟩ := Term.Grounded.exists_forall h
        exact ht k (.sequence hk)
      obtain ⟨done, b, rest, hsplit, hdone, hb⟩ := Term.exists_first_not_grounded hts
      have hyields (path : List String) :
          ∀ d ∈ done, YieldsAt book path (term (resolve book path) d) :=
        fun d hd => (hdone d hd).elim fun _ hk => yieldsAt_term hk
      have hmem : b ∈ ts := hsplit ▸ List.mem_append_right done List.mem_cons_self
      obtain ⟨σ, chain, hrecurs⟩ := exists_recurs_term hresolve b hb
      rw [hsplit]
      exact ⟨σ, chain, hrecurs.lift (faultsAt_sequence (hyields path))
        (faultsAt_sequence (hyields (stuck ++ path)))⟩
  | .choice [] =>
      refine ⟨.compile .illFormed, [], .of_nil ?_ ?_⟩
      · rw [term]
        exact faultsAt_failHere .emptyChoice
      · rw [term]
        exact faultsAt_failHere .emptyChoice
  | .choice (block :: blocks) =>
      have hts : ¬ ∀ t ∈ block :: blocks, ∃ k, t.Grounded book k := fun h => by
        obtain ⟨k, hk⟩ := Term.Grounded.exists_forall h
        exact ht k (.choice (List.cons_ne_nil block blocks) hk)
      obtain ⟨done, b, rest, hsplit, hdone, hb⟩ := Term.exists_first_not_grounded hts
      have hyields (path : List String) :
          ∀ d ∈ done, YieldsAt book path (term (resolve book path) d) :=
        fun d hd => (hdone d hd).elim fun _ hk => yieldsAt_term hk
      have hmem : b ∈ block :: blocks := hsplit ▸ List.mem_append_right done List.mem_cons_self
      obtain ⟨σ, chain, hrecurs⟩ := exists_recurs_term hresolve b hb
      rw [hsplit]
      exact ⟨σ, chain, hrecurs.lift (faultsAt_choice (hyields path))
        (faultsAt_choice (hyields (stuck ++ path)))⟩
  | .optional block =>
      obtain ⟨σ, chain, hrecurs⟩ :=
        exists_recurs_term hresolve block fun k hk => ht k (.optional hk)
      rw [term, term]
      exact ⟨σ, chain, hrecurs.lift (fun h => h.bind _) fun h => h.bind _⟩
  | .kleene block =>
      obtain ⟨σ, chain, hrecurs⟩ := exists_recurs_term hresolve block fun k hk => ht k (.kleene hk)
      rw [term, term]
      exact ⟨σ, chain, hrecurs.lift (fun h => h.bind _) fun h => h.bind _⟩
  | .plus block =>
      obtain ⟨σ, chain, hrecurs⟩ := exists_recurs_term hresolve block fun k hk => ht k (.plus hk)
      rw [term, term]
      exact ⟨σ, chain, hrecurs.lift (fun h => h.bind _) fun h => h.bind _⟩
  | .ref name =>
      rw [term, term]
      exact hresolve name ht
termination_by t
decreasing_by
  all_goals first
    | (have hsize := List.sizeOf_lt_of_mem hmem; simp at hsize ⊢; omega)
    | simp

/-- A fault inside a definition **comes back** when the definition is compiled
again, even where names further out were left in progress. Its own name is put on
both paths. -/
theorem Recurs.define {body : Pattern} (hpath : name ∉ path) (hstuck : name ∉ stuck)
    (hdef : book.definitions.get? name = some body) (hname : ∀ k, ¬ (Term.ref name).Grounded book k)
    (h : Recurs book stuck (path ++ [name]) (inside book path name body)
      (inside book (stuck ++ path) name body) σ chain) :
    Recurs book stuck path (resolve book path name) (resolve book (stuck ++ path) name) σ
      (name :: chain) := by
  have hboth : name ∉ stuck ++ path := fun hmem => (List.mem_append.mp hmem).elim hstuck hpath
  have hinside {σ : FailureSort} {chain : List String}
      (hfaults : FaultsAt book (stuck ++ (path ++ [name]))
        (inside book (stuck ++ path) name body) σ chain) :
      FaultsAt book (stuck ++ path) (resolve book (stuck ++ path) name) σ (name :: chain) := by
    rw [← List.append_assoc] at hfaults
    exact faultsAt_resolve_of_inside hboth hdef hname hfaults
  refine ⟨faultsAt_resolve_of_inside hpath hdef hname h.faults, fun hdisjoint => ?_,
    fun hmeets => ?_⟩
  · exact hinside (h.recurs (List.disjoint_cons_left.mp hdisjoint).2)
  · have hmeets' : ¬ chain.Disjoint stuck := fun hdisjoint =>
      hmeets (List.disjoint_cons_left.mpr ⟨hstuck, hdisjoint⟩)
    obtain ⟨chain', hcycles⟩ := h.cycles hmeets'
    exact ⟨name :: chain', hinside hcycles⟩

/-- A definition that is not grounded meets a fault that recurs, **if its term does**.
Once its name has been left behind as in progress, the second fault is a cycle, met at
the same place. -/
theorem exists_recurs_inside {body : Pattern} (hdef : book.definitions.get? name = some body)
    (hname : ∀ k, ¬ (Term.ref name).Grounded book k)
    (hterm : ∀ t, (∀ k, ¬ t.Grounded book k) → ∃ σ chain, Recurs book stuck (path ++ [name])
      (term (resolve book (path ++ [name])) t)
      (term (resolve book (stuck ++ (path ++ [name]))) t) σ chain) :
    ∃ σ chain, Recurs book stuck (path ++ [name]) (inside book path name body)
      (inside book (stuck ++ path) name body) σ chain := by
  unfold inside
  cases hcontent : Content.ofPattern book.limits body with
  | error e =>
      exact ⟨e.sort, [], .of_nil ((faultsAt_ofExcept e).bind _) ((faultsAt_ofExcept e).bind _)⟩
  | ok content =>
      cases content with
      | interleave ts => exact ⟨_, [], .of_nil (faultsAt_failHere _) (faultsAt_failHere _)⟩
      | term t =>
          obtain ⟨σ, chain, hrecurs⟩ := hterm t (Term.not_grounded_of_content hdef hname hcontent)
          rw [← List.append_assoc] at hrecurs
          exact ⟨σ, chain, hrecurs.lift (fun h => h.bind _) fun h => h.bind _⟩

/-- A reference that is not grounded meets a fault that recurs. The induction is that of
`resolve`: on the definitions that are not being compiled. -/
theorem exists_recurs_resolve (book : Rulebook) (stuck path : List String) (name : String)
    (hname : ∀ k, ¬ (Term.ref name).Grounded book k) :
    ∃ σ chain, Recurs book stuck path (resolve book path name)
      (resolve book (stuck ++ path) name) σ chain := by
  induction hn : unseen book.definitions.keys path using Nat.strong_induction_on
    generalizing path name with
  | _ n ih =>
    by_cases hpath : name ∈ path
    · have hboth : name ∈ stuck ++ path := List.mem_append_right stuck hpath
      exact ⟨_, [], .of_nil (faultsAt_resolve_of_mem hpath) (faultsAt_resolve_of_mem hboth)⟩
    cases hdef : book.definitions.get? name with
    | none =>
        exact ⟨_, [], .of_nil (faultsAt_resolve_of_undefined hdef)
          (faultsAt_resolve_of_undefined hdef)⟩
    | some body =>
        have hless : unseen book.definitions.keys (path ++ [name]) < n := by
          rw [← hn]
          exact unseen_append_lt hdef hpath
        have hinside := exists_recurs_inside hdef hname (exists_recurs_term fun other hother =>
          ih _ hless (path ++ [name]) other hother rfl)
        obtain ⟨σ, chain, hrecurs⟩ := hinside
        by_cases hstuck : name ∈ stuck
        · -- the chain begins with a name that was left behind, which the second step takes for a
          -- cycle
          refine ⟨σ, name :: chain, faultsAt_resolve_of_inside hpath hdef hname hrecurs.faults,
            fun hdisjoint => ?_,
              fun _ => ⟨[], faultsAt_resolve_of_mem (List.mem_append_left path hstuck)⟩⟩
          exact absurd hstuck (List.disjoint_cons_left.mp hdisjoint).1
        · exact ⟨σ, name :: chain, hrecurs.define hpath hstuck hdef hname⟩

/-! ## Contents and patterns -/

/-- A step between contents, which begins where the session stands: it **yields** in a
new session and in a stuck one, or it meets a fault that recurs. -/
def Retries (book : Rulebook) (stuck : List String) (m : Compiling α) : Prop :=
  (YieldsAt book [] m ∧ YieldsAt book stuck m) ∨ ∃ σ chain, Recurs book stuck [] m m σ chain

/-- What is at fault on every path fails again in the same way. Faults that do not
depend on what is in progress are all of this sort. -/
theorem Retries.of_fault (h : ∀ path, FaultsAt book path m σ []) : Retries book stuck m :=
  .inr ⟨σ, [], .of_nil (h []) (h (stuck ++ []))⟩

/-- A bounded term is at fault as its term is, since the size of a table is looked at
only when there is one. -/
theorem FaultsAt.boundedTerm (h : FaultsAt book path (term (resolve book path) t) σ chain) :
    FaultsAt book path (boundedTerm book t) σ chain := by
  intro s hs
  obtain ⟨e, s', hfails, hsort, hs'⟩ := h s hs
  refine ⟨e, s', ?_, hsort, hs'⟩
  rw [Compiling.boundedTerm]
  refine (yields_get.mpr ⟨rfl, rfl⟩).fails_bind ?_
  rw [hs.groundedAt.inProgress_eq]
  exact hfails.bind _

/-- Whether the table of a grounded term has too many states **does not depend on the
session**. Tables of one expression are recodings of each other, so they have equally
many states. -/
theorem boundedTerm_of_grounded {k : Nat} (h : t.Grounded book k) :
    (∀ path, YieldsAt book path (boundedTerm book t)) ∨
    ∀ path, FaultsAt book path (boundedTerm book t) .limit [] := by
  have hnew : YieldsAt book [] (term (resolve book []) t) := yieldsAt_term h
  obtain ⟨a, s', ha, -⟩ := hnew {} (Session.usable_new book)
  obtain ⟨r, cs, hdelivers⟩ :=
    delivers_term (fun name => delivers_resolve book [] name) t {} a s' (sound_new _) ha
  -- in any session the term makes a recoding of the table that it makes in a new one
  have hmade (path : List String) (u : Session) (hu : u.Usable book path) : ∃ b u',
      (term (resolve book u.inProgress) t).Yields u b u' ∧ b.stateCount = a.stateCount ∧
      u'.Usable book path := by
    obtain ⟨b, u', hb, hu'⟩ := yieldsAt_term h u hu
    obtain ⟨q, ds, hdelivers'⟩ :=
      delivers_term (fun name => delivers_resolve book path name) t u b u' hu.sound hb
    obtain rfl := hdelivers.expands.unique hdelivers'.expands
    rw [hu.groundedAt.inProgress_eq]
    exact ⟨b, u', hb, (hdelivers.made.recodes hdelivers'.made).stateCount_eq, hu'⟩
  cases hcheck : book.limits.check .automatonStates a.stateCount with
  | ok _ =>
      refine .inl fun path u hu => ?_
      obtain ⟨b, u', hb, hcount, hu'⟩ := hmade path u hu
      exact ⟨b, u', yields_boundedTerm.mpr ⟨hb, by rw [hcount, hcheck]⟩, hu'⟩
  | error excess =>
      refine .inr fun path u hu => ?_
      obtain ⟨b, u', hb, hcount, hu'⟩ := hmade path u hu
      refine ⟨.limit excess, u', ?_, rfl, by rwa [List.append_nil]⟩
      rw [Compiling.boundedTerm]
      refine (yields_get.mpr ⟨rfl, rfl⟩).fails_bind (hb.fails_bind (Fails.bind ?_ _))
      rw [hcount, hcheck]
      exact fails_ofExcept _ u'

/-- A bounded term that fails in a new session fails in a stuck one **with the same sort
of failure**, unless a name that is stuck is what it comes upon. -/
theorem retries_boundedTerm (book : Rulebook) (stuck : List String) (t : Term) :
    Retries book stuck (boundedTerm book t) := by
  by_cases ht : ∃ k, t.Grounded book k
  · obtain ⟨k, hk⟩ := ht
    rcases boundedTerm_of_grounded hk with hyields | hfaults
    · exact .inl ⟨hyields [], hyields stuck⟩
    · exact .of_fault hfaults
  · obtain ⟨σ, chain, hrecurs⟩ :=
      exists_recurs_term (exists_recurs_resolve book stuck []) t (not_exists.mp ht)
    exact .inr ⟨σ, chain, hrecurs.lift FaultsAt.boundedTerm FaultsAt.boundedTerm⟩

/-- What is done with a result does not change how a step fails. -/
theorem Retries.bind_pure (h : Retries book stuck m) (f : α → β) :
    Retries book stuck (m >>= fun x => pure (f x)) := by
  rcases h with ⟨hnew, hstuck⟩ | ⟨σ, chain, hrecurs⟩
  · exact .inl ⟨hnew.bind fun _ => yieldsAt_pure _, hstuck.bind fun _ => yieldsAt_pure _⟩
  · exact .inr ⟨σ, chain, hrecurs.lift (fun h => h.bind _) fun h => h.bind _⟩

theorem retries_blocks (book : Rulebook) (stuck : List String) (ts : List Term) :
    Retries book stuck (blocks book ts) := by
  induction ts with
  | nil =>
      rw [blocks]
      exact .inl ⟨yieldsAt_pure _, yieldsAt_pure _⟩
  | cons t ts ih =>
      rw [blocks]
      rcases retries_boundedTerm book stuck t with ⟨hnew, hstuck⟩ | ⟨σ, chain, hrecurs⟩
      · rcases ih with ⟨hnew', hstuck'⟩ | ⟨σ, chain, hrecurs⟩
        · exact .inl ⟨hnew.bind fun _ => hnew'.bind fun _ => yieldsAt_pure _,
            hstuck.bind fun _ => hstuck'.bind fun _ => yieldsAt_pure _⟩
        · rw [← List.append_nil stuck] at hstuck
          exact .inr
            ⟨σ, chain, hrecurs.lift (fun h => hnew.faultsAt_bind fun _ => h.bind _) fun h =>
            hstuck.faultsAt_bind fun _ => h.bind _⟩
      · exact .inr ⟨σ, chain, hrecurs.lift (fun h => h.bind _) fun h => h.bind _⟩

theorem retries_content (book : Rulebook) (stuck : List String) (c : Content) :
    Retries book stuck (content book c) := by
  cases c with
  | term t =>
      rw [content]
      exact (retries_boundedTerm book stuck t).bind_pure _
  | interleave ts =>
      rw [content]
      exact (retries_blocks book stuck ts).bind_pure _

/-- So a pattern that is refused is refused again. Its normal form and its whole content
are found without the session. -/
theorem retries_pattern (book : Rulebook) (stuck : List String) (p : Pattern) :
    Retries book stuck (pattern book p) := by
  rw [pattern]
  cases p.normalize with
  | error cause => exact .of_fault fun _ => (faultsAt_failHere cause).bind _
  | ok normal =>
      obtain ⟨found, hfound⟩ := exists_wholeContent_eq book [] normal
      rw [orFailHere, pure_bind, hfound]
      cases found with
      | error cause => exact .of_fault fun _ => (faultsAt_failHere cause).bind _
      | ok whole =>
          rw [orFailHere, pure_bind]
          cases Content.ofPattern book.limits whole with
          | error e => exact .of_fault fun _ => (faultsAt_ofExcept e).bind _
          | ok c =>
              rw [ofExcept, pure_bind]
              exact retries_content book stuck c

end Compiling

/-! ## Sessions that have been used -/

open Compiling

/-- The session is left behind by any calls for patterns, at whatever places, **whether
they succeed or fail**. -/
inductive Session.Used (book : Rulebook) : Session → Prop
  | new : Session.Used book {}
  | pattern {s : Session} (hs : Session.Used book s) (p : Pattern) :
      Session.Used book ((Compiling.pattern book p).run.run s).2
  | located {s : Session} (location : Option String) (hs : Session.Used book s) :
      Session.Used book { s with location := location }

/-- A session stays usable, **stuck at whatever names** failures have left behind in it.
By induction on what has been compiled in it, failures included. -/
theorem Session.Used.usable (h : s.Used book) : s.Usable book s.inProgress := by
  induction h with
  | new => exact usable_new book
  | located location _ ih => exact ih.located location
  | @pattern s _ p ih =>
      have hafter {path : List String} {s' : Session} (hs' : s'.Usable book path) :
          s'.Usable book s'.inProgress := by
        rwa [hs'.groundedAt.inProgress_eq]
      have hfault {σ : FailureSort} {chain : List String}
          (hfaults : FaultsAt book (s.inProgress ++ []) (Compiling.pattern book p) σ chain) :
          ((Compiling.pattern book p).run.run s).2.Usable book
            ((Compiling.pattern book p).run.run s).2.inProgress := by
        rw [List.append_nil] at hfaults
        obtain ⟨e, s', hfails, -, hs'⟩ := hfaults s ih
        rw [show (Compiling.pattern book p).run.run s = (.error e, s') from hfails]
        exact hafter hs'
      rcases retries_pattern book s.inProgress p with ⟨-, hyields⟩ | ⟨σ, chain, hrecurs⟩
      · obtain ⟨c, s', hc, hs'⟩ := hyields s ih
        rw [show (Compiling.pattern book p).run.run s = (.ok c, s') from hc]
        exact hafter hs'
      · by_cases hdisjoint : chain.Disjoint s.inProgress
        · exact hfault (hrecurs.recurs hdisjoint)
        · obtain ⟨chain', hcycles⟩ := hrecurs.cycles hdisjoint
          exact hfault hcycles

/-- Whatever a session has been used for, a pattern compiles in it **exactly if it does
in a new one**. If it fails in both, the failures are of the same sort unless the new
session fails inside a definition in whose midst the used one has failed before: then
the used session reports a cycle. -/
theorem Compiling.pattern_of_used (hs : s.Used book) (p : Pattern) :
    ((∃ c s', (pattern book p).Yields s c s') ↔ ∃ c s', (pattern book p).Yields {} c s') ∧
      ∀ e fresh e' s', (pattern book p).Fails {} e fresh → (pattern book p).Fails s e' s' →
        (fresh.inProgress.Disjoint s.inProgress → e'.sort = e.sort) ∧
          (¬ fresh.inProgress.Disjoint s.inProgress → e'.sort = .compile .cyclicReference) := by
  have husable := hs.usable
  have hnew := Session.usable_new book
  -- retrying has two outcomes: the pattern compiles in every usable session, or the fault
  -- recurs in this one
  rcases retries_pattern book s.inProgress p with ⟨hyields, hyields'⟩ | ⟨σ, chain, hrecurs⟩
  · obtain ⟨c, s', hc, -⟩ := hyields _ hnew
    obtain ⟨c', s'', hc', -⟩ := hyields' s husable
    refine ⟨iff_of_true ⟨c', s'', hc'⟩ ⟨c, s', hc⟩, fun e fresh e' s₁ he => ?_⟩
    exact absurd hc (he.not_yields c s')
  · have hsecond {σ : FailureSort} {chain : List String}
        (hfaults : FaultsAt book (s.inProgress ++ []) (pattern book p) σ chain) :
        ∃ e s', (pattern book p).Fails s e s' ∧ e.sort = σ := by
      rw [List.append_nil] at hfaults
      obtain ⟨e, s', hfails, hsort, -⟩ := hfaults s husable
      exact ⟨e, s', hfails, hsort⟩
    obtain ⟨e, fresh, he, hsort, hfresh⟩ := hrecurs.faults _ hnew
    have hchain : fresh.inProgress = chain := hfresh.groundedAt.inProgress_eq
    -- the chain of the first fault decides which sort the second one is of
    have hfails : ∃ e' s', (pattern book p).Fails s e' s' ∧
        (chain.Disjoint s.inProgress → e'.sort = σ) ∧
        (¬ chain.Disjoint s.inProgress → e'.sort = .compile .cyclicReference) := by
      by_cases hdisjoint : chain.Disjoint s.inProgress
      · obtain ⟨e', s', he', hsort'⟩ := hsecond (hrecurs.recurs hdisjoint)
        exact ⟨e', s', he', fun _ => hsort', fun hmeets => absurd hdisjoint hmeets⟩
      · obtain ⟨chain', hcycles⟩ := hrecurs.cycles hdisjoint
        obtain ⟨e', s', he', hsort'⟩ := hsecond hcycles
        exact ⟨e', s', he', fun h => absurd h hdisjoint, fun _ => hsort'⟩
    obtain ⟨e', s', he', hsorts⟩ := hfails
    refine ⟨iff_of_false (fun ⟨c, s₁, hc⟩ => he'.not_yields c s₁ hc)
      fun ⟨c, s₁, hc⟩ => he.not_yields c s₁ hc, ?_⟩
    intro e₁ fresh₁ e₁' s₁ he₁ he₁'
    obtain ⟨rfl, rfl⟩ := he.unique he₁
    obtain ⟨rfl, rfl⟩ := he'.unique he₁'
    rw [hchain, hsort]
    exact hsorts

/-- One definition, a choice of nothing. -/
def hollow : Rulebook where
  definitions := .ofList [("none", .choice [])]

/-- An `a` and then the choice of nothing. -/
def aThenNone : Pattern := .sequence [.token "a", .ref "none"]

theorem get?_hollow : hollow.definitions.get? "none" = some (.choice []) := by decide

/-- A name defined as the empty choice cannot be compiled at any height. -/
theorem not_grounded_none (k : Nat) : ¬ (Term.ref "none").Grounded hollow k := by
  intro h
  cases h with
  | ref hdef hcontent hterm =>
      rw [get?_hollow, Option.some.injEq] at hdef
      rw [← hdef] at hcontent
      cases hcontent

/-- The pattern fails as its second part does, since the first is a token. The fault is
the one of the reference in it. -/
theorem faultsAt_aThenNone (h : FaultsAt hollow path (resolve hollow path "none") σ chain) :
    FaultsAt hollow path (pattern hollow aThenNone) σ chain := by
  have hreference : FaultsAt hollow path (term (resolve hollow path) (.ref "none")) σ chain := by
    rwa [term]
  have hfirst :
      ∀ b ∈ [Term.token (.element "a")], YieldsAt hollow path (term (resolve hollow path) b) := by
    intro b hb
    rw [List.mem_singleton.mp hb]
    exact yieldsAt_term (.token (k := 0) (.element "a"))
  have hsequence : FaultsAt hollow path
      (term (resolve hollow path) (.sequence [.token (.element "a"), .ref "none"])) σ chain :=
    faultsAt_sequence hfirst hreference
  have hpattern : pattern hollow aThenNone =
      content hollow (.term (.sequence [.token (.element "a"), .ref "none"])) := by
    rw [pattern]
    show wholeContent hollow [] aThenNone >>= _ = _
    rw [wholeContent.eq_def]
    rfl
  rw [hpattern, content]
  exact hsequence.boundedTerm.bind _

/-- A first failure leaves the name in progress, in a session that is used and usable up
to that name. -/
theorem exists_used_hollow : ∃ e s, (pattern hollow aThenNone).Fails {} e s ∧
    e.sort = .compile .illFormed ∧ s.Used hollow ∧ s.Usable hollow ["none"] := by
  have hcontent :
      Content.ofPattern hollow.limits (.choice []) = .error (.compile { cause := .emptyChoice }) :=
        rfl
  have hinside : FaultsAt hollow ([] ++ ["none"]) (inside hollow [] "none" (.choice []))
      (.compile .illFormed) [] := by
    unfold inside
    rw [hcontent]
    exact (faultsAt_ofExcept _).bind _
  have hfaults :=
    faultsAt_aThenNone
      (faultsAt_resolve_of_inside List.not_mem_nil get?_hollow not_grounded_none hinside)
  obtain ⟨e, s, he, hsort, hs⟩ := hfaults {} (Session.usable_new hollow)
  have hused : Session.Used hollow ((pattern hollow aThenNone).run.run {}).2 :=
    .pattern .new aThenNone
  rw [show (pattern hollow aThenNone).run.run {} = (.error e, s) from he] at hused
  exact ⟨e, s, he, hsort, hused, hs⟩

/-- The second time the same pattern fails **in another way**. The first failure is
about the definition, the second one about a cycle that the definitions do not have. -/
theorem sort_ne_of_used : ∃ e s e' s', (pattern hollow aThenNone).Fails {} e s ∧ s.Used hollow ∧
    (pattern hollow aThenNone).Fails s e' s' ∧ e.sort = .compile .illFormed ∧
      e'.sort = .compile .cyclicReference := by
  obtain ⟨e, s, he, hsort, hused, hs⟩ := exists_used_hollow
  -- the name of the definition has been left behind, so the reference to it closes a cycle
  have hcycle : FaultsAt hollow ["none"] (resolve hollow ["none"] "none")
      (.compile .cyclicReference) [] :=
    faultsAt_resolve_of_mem (List.mem_singleton_self "none")
  obtain ⟨e', s', he', hsort', -⟩ := faultsAt_aThenNone hcycle s hs
  exact ⟨e, s, e', s', he, hused, he', hsort, hsort'⟩

/-- After that failure a pattern without references compiles, and the one that failed
fails for a cycle. -/
theorem pattern_of_used_hollow :
    ∃ s, s.Used hollow ∧ (∃ c s', (pattern hollow (.plus (.token "b"))).Yields s c s') ∧
      ∀ e s', (pattern hollow aThenNone).Fails s e s' → e.sort = .compile .cyclicReference := by
  obtain ⟨e, s, he, -, hused, hs⟩ := exists_used_hollow
  have hnew : (pattern hollow (.plus (.token "b"))).Yields {} (.single _) _ :=
    yields_pattern_of_term rfl (by simp) rfl rfl
  have hmeets : ¬ s.inProgress.Disjoint s.inProgress := by
    rw [hs.groundedAt.inProgress_eq]
    exact fun hdisjoint => hdisjoint (List.mem_singleton_self "none")
      (List.mem_singleton_self "none")
  refine ⟨s, hused, (pattern_of_used hused (.plus (.token "b"))).1.mpr ⟨_, _, hnew⟩,
    fun e' s' he' => ?_⟩
  exact ((pattern_of_used hused aThenNone).2 e s e' s' he he').2 hmeets

end TreeGrammar
