/-
Which terms can be compiled.

A reference can fail for what is being compiled around it, so whether a run succeeds
seems to depend on where it begins and on which definitions have been finished before.
It does not: a term can be compiled exactly when it is **grounded**, which is to say
that following references comes to an end in it, at regular contents within the bounds.
A grounded term compiles in every session, however the definitions around it are not
grounded so soon (`exists_yields_resolve`); and what compiles in a session that keeps
only grounded definitions is grounded, and leaves such a session (`settles_term`,
`settles_resolve`).
-/
import TreeGrammar.Proofs.Automaton.Beyond
import TreeGrammar.Proofs.Compile.Run

set_option autoImplicit false

namespace TreeGrammar

open Automaton Compiling

/-! ## Grounded terms -/

/-- Following references in the term, **at most `k` in a row**, comes to an end. -/
inductive Term.Grounded (book : Rulebook) : Nat → Term → Prop
  | token {k : Nat} (x : Token) : Grounded book k (.token x)
  | sequence {k : Nat} {ts : List Term} (h : ∀ t ∈ ts, Grounded book k t) :
      Grounded book k (.sequence ts)
  | choice {k : Nat} {ts : List Term} (hne : ts ≠ []) (h : ∀ t ∈ ts, Grounded book k t) :
      Grounded book k (.choice ts)
  | optional {k : Nat} {t : Term} (h : Grounded book k t) : Grounded book k (.optional t)
  | kleene {k : Nat} {t : Term} (h : Grounded book k t) : Grounded book k (.kleene t)
  | plus {k : Nat} {t : Term} (h : Grounded book k t) : Grounded book k (.plus t)
  | ref {k : Nat} {name : String} {body : Pattern} {t : Term}
      (hdef : book.definitions.get? name = some body)
      (hcontent : Content.ofPattern book.limits body = .ok (.term t)) (h : Grounded book k t) :
      Grounded book (k + 1) (.ref name)

variable {book : Rulebook} {k m : Nat} {t : Term} {name : String} {path : List String}

namespace Term.Grounded

/-- A term that is grounded at one height is grounded at every greater one, so the
heights of the parts of a group may be taken as one. -/
theorem mono (h : t.Grounded book k) (hkm : k ≤ m) : t.Grounded book m := by
  induction h generalizing m with
  | token x => exact .token x
  | sequence _ ih => exact .sequence fun t ht => ih t ht hkm
  | choice hne _ ih => exact .choice hne fun t ht => ih t ht hkm
  | optional _ ih => exact .optional (ih hkm)
  | kleene _ ih => exact .kleene (ih hkm)
  | plus _ ih => exact .plus (ih hkm)
  | ref hdef hcontent _ ih =>
      obtain ⟨m, rfl⟩ := Nat.exists_eq_add_of_le' hkm
      exact .ref hdef hcontent (ih (Nat.le_add_left _ _))

/-- Terms that are grounded each are grounded **together**. Being grounded carries
a bound on the depth of references, and the greatest of finitely many bounds
serves for all. -/
theorem exists_forall {ts : List Term} (h : ∀ t ∈ ts, ∃ k, t.Grounded book k) :
    ∃ k, ∀ t ∈ ts, t.Grounded book k := by
  induction ts with
  | nil => exact ⟨0, fun t ht => absurd ht List.not_mem_nil⟩
  | cons t ts ih =>
      obtain ⟨k, hk⟩ := h t List.mem_cons_self
      obtain ⟨m, hm⟩ := ih fun t' ht' => h t' (List.mem_cons_of_mem t ht')
      refine ⟨max k m, List.forall_mem_cons.mpr ⟨hk.mono (Nat.le_max_left k m), fun t' ht' => ?_⟩⟩
      exact (hm t' ht').mono (Nat.le_max_right k m)

end Term.Grounded

/-! ## What is grounded compiles -/

namespace Compiling

variable {s s' : Session} {a : Automaton}

/-- Blocks that compile in every session compile **one after the other**. The table so
far is passed on, and no step of the loop can fail by itself. -/
theorem exists_yields_blocks {resolve : String → Compiling Automaton}
    {group : List Term → Term} {loop : Automaton → List Term → Compiling Automaton}
    {put : Nat → Automaton → Automaton → Built} (hloop : BlockLoop resolve group loop put)
    {rest : List Term} (hblocks : ∀ t ∈ rest, ∀ s, ∃ b s', (term resolve t).Yields s b s')
    (before : Automaton) (s : Session) : ∃ a s', (loop before rest).Yields s a s' := by
  induction rest generalizing before s with
  | nil => exact ⟨before, s, hloop.yields_nil.mpr ⟨rfl, rfl⟩⟩
  | cons t rest ih =>
      obtain ⟨b, s₁, hb⟩ := hblocks t List.mem_cons_self s
      obtain ⟨a, s', ha⟩ := ih (fun t' ht' => hblocks t' (List.mem_cons_of_mem t ht'))
        (put s₁.drawn before b).automaton (afterBuild s₁ (put s₁.drawn before b))
      exact ⟨a, s', hloop.yields_cons.mpr ⟨b, s₁, hb, ha⟩⟩

/-- A grounded term compiles in every session **if the references in it do**. By
induction on the term; of the operators none fails on the tables of its operands. -/
theorem exists_yields_term {resolve : String → Compiling Automaton}
    (hresolve : ∀ name, (Term.ref name).Grounded book k → ∀ s, ∃ a s', (resolve name).Yields s a s')
    (h : t.Grounded book k) (s : Session) : ∃ a s', (term resolve t).Yields s a s' := by
  -- the only case that may fail in general, an empty choice, is not grounded
  induction h generalizing s with
  | token x => exact ⟨_, s, yields_token.mpr ⟨rfl, rfl⟩⟩
  | @sequence k ts _ ih =>
      cases ts with
      | nil => exact ⟨_, s, yields_emptySequence.mpr ⟨rfl, rfl⟩⟩
      | cons block rest =>
          obtain ⟨first, s₁, hfirst⟩ := ih block List.mem_cons_self hresolve s
          obtain ⟨a, s', ha⟩ := exists_yields_blocks (blockLoop_sequence resolve)
            (fun t ht => ih t (List.mem_cons_of_mem block ht) hresolve) first s₁
          exact ⟨a, s', (blockLoop_sequence resolve).yields_first.mpr ⟨first, s₁, hfirst, ha⟩⟩
  | @choice k ts hne _ ih =>
      cases ts with
      | nil => exact absurd rfl hne
      | cons block rest =>
          obtain ⟨first, s₁, hfirst⟩ := ih block List.mem_cons_self hresolve s
          obtain ⟨a, s', ha⟩ := exists_yields_blocks (blockLoop_choice resolve)
            (fun t ht => ih t (List.mem_cons_of_mem block ht) hresolve) first s₁
          exact ⟨a, s', (blockLoop_choice resolve).yields_first.mpr ⟨first, s₁, hfirst, ha⟩⟩
  | optional _ ih =>
      obtain ⟨b, s₁, hb⟩ := ih hresolve s
      exact ⟨_, s₁, yields_optional.mpr ⟨b, hb, rfl⟩⟩
  | kleene _ ih =>
      obtain ⟨b, s₁, hb⟩ := ih hresolve s
      exact ⟨_, _, yields_kleene.mpr ⟨b, s₁, hb, rfl, rfl⟩⟩
  | plus _ ih =>
      obtain ⟨b, s₁, hb⟩ := ih hresolve s
      exact ⟨_, _, yields_plus.mpr ⟨b, s₁, hb, rfl, rfl⟩⟩
  | @ref k name body t hdef hcontent h _ =>
      rw [term]
      exact hresolve name (.ref hdef hcontent h) s

/-- A grounded reference compiles **in every session**, whatever has been finished, if
none of the definitions being compiled around it is grounded as soon: then it does not
lead back to one of them. -/
theorem exists_yields_resolve (h : (Term.ref name).Grounded book k)
    (hpath : ∀ other ∈ path, ¬ (Term.ref other).Grounded book k) (s : Session) :
    ∃ a s', (resolve book path name).Yields s a s' := by
  induction k using Nat.strong_induction_on generalizing path name s with
  | _ k ih =>
    cases hfinished : s.finished.get? name with
    | some kept => exact ⟨_, _, (yields_resolve_of_kept hfinished).mpr ⟨rfl, rfl⟩⟩
    | none =>
        classical
        -- the definition joins the path, so the references in it are looked at where it is
        -- not grounded yet
        have hleast : ∃ m ≤ k, (Term.ref name).Grounded book m ∧
            ∀ n < m, ¬ (Term.ref name).Grounded book n := by
          have hexists : ∃ m, (Term.ref name).Grounded book m := ⟨k, h⟩
          exact ⟨Nat.find hexists, Nat.find_min' hexists h, Nat.find_spec hexists,
            fun n hn => Nat.find_min hexists hn⟩
        obtain ⟨m, hmk, hm, hbelow⟩ := hleast
        cases hm with
        | @ref n _ body t hdef hcontent hterm =>
            have hresolve : ∀ other, (Term.ref other).Grounded book n → ∀ s,
                ∃ a s', (resolve book (path ++ [name]) other).Yields s a s' := by
              intro other hother s
              refine ih n (by omega) hother (fun q hq hgrounded => ?_) s
              rcases List.mem_append.mp hq with hq | hq
              · exact hpath q hq (hgrounded.mono (by omega))
              · rw [List.mem_singleton.mp hq] at hgrounded
                exact hbelow n (Nat.lt_succ_self n) hgrounded
            obtain ⟨a, s₁, ha⟩ :=
              exists_yields_term hresolve hterm { s with inProgress := path ++ [name] }
            refine ⟨a, _, (yields_resolve_of_new hfinished).mpr
              ⟨?_, body, t, s₁, hdef, hcontent, ha, rfl⟩⟩
            exact fun hmem => hpath name hmem h

end Compiling

/-! ## What compiles is grounded -/

/-- The session is compiling the definitions of the path, and every one that it has
finished **is grounded**. -/
structure Session.GroundedAt (book : Rulebook) (path : List String) (s : Session) : Prop where
  inProgress_eq : s.inProgress = path
  grounded : ∀ name a, s.finished.get? name = some a → ∃ k, (Term.ref name).Grounded book k

/-- The second session is the first **further on**. -/
structure Session.Precedes (book : Rulebook) (s s' : Session) : Prop where
  groundedAt : ∀ path, s.GroundedAt book path → s'.GroundedAt book path
  drawn_le : s.drawn ≤ s'.drawn

namespace Session.Precedes

variable {s s₁ s' : Session}

theorem refl (s : Session) : s.Precedes book s := ⟨fun _ => id, Nat.le_refl _⟩

/-- What a session is followed by, and what that is followed by, it precedes both. Runs
are put together from their steps with this. -/
theorem trans (h : s.Precedes book s₁) (h' : s₁.Precedes book s') : s.Precedes book s' :=
  ⟨fun path hs => h'.groundedAt path (h.groundedAt path hs), h.drawn_le.trans h'.drawn_le⟩

/-- Building a table moves a session on: numbers are drawn forward, and nothing is
finished or in progress because of it. -/
theorem afterBuild (s : Session) {b : Built} (h : s.drawn ≤ b.drawn) :
    s.Precedes book (afterBuild s b) :=
  ⟨fun _ hs => ⟨hs.inProgress_eq, hs.grounded⟩, h⟩

end Session.Precedes

/-- Every run that succeeds within the path is one of a **grounded term**, and makes a
table on new numbers. -/
def SettlesFrom (book : Rulebook) (path : List String) (m : Compiling Automaton) (t : Term) :
    Prop :=
  ∀ s a s', s.GroundedAt book path → m.Yields s a s' →
    s.Precedes book s' ∧ a.Beyond s.drawn ∧ ∃ k, t.Grounded book k

namespace Compiling

variable {s s' : Session} {a : Automaton}

/-- Blocks that are compiled one by one, each put to those before. If one of them fails,
the loop has that failure; if all compile, it compiles. -/
theorem settles_blocks {resolve : String → Compiling Automaton} {group : List Term → Term}
    {loop : Automaton → List Term → Compiling Automaton} {put : Nat → Automaton → Automaton → Built}
    (hloop : BlockLoop resolve group loop put)
    (hput : ∀ {n m a b}, a.Beyond n → b.Beyond n → n ≤ m →
      (put m a b).automaton.Beyond n ∧ m ≤ (put m a b).drawn)
    {rest : List Term} (hblocks : ∀ t ∈ rest, SettlesFrom book path (term resolve t) t)
    {before : Automaton} {n : Nat} (hs : s.GroundedAt book path) (hbefore : before.Beyond n)
    (hn : n ≤ s.drawn) (h : (loop before rest).Yields s a s') :
    s.Precedes book s' ∧ a.Beyond n ∧ ∀ t ∈ rest, ∃ k, t.Grounded book k := by
  induction rest generalizing before s with
  | nil =>
      obtain ⟨rfl, rfl⟩ := hloop.yields_nil.mp h
      exact ⟨.refl s', hbefore, fun t ht => absurd ht List.not_mem_nil⟩
  | cons t rest ih =>
      obtain ⟨b, s₁, hb, h⟩ := hloop.yields_cons.mp h
      obtain ⟨hprecedes, hbeyond, hgrounded⟩ := hblocks t List.mem_cons_self s b s₁ hs hb
      obtain ⟨hput, hdrawn⟩ := hput hbefore (hbeyond.mono hn) (hn.trans hprecedes.drawn_le)
      have hbuild := hprecedes.trans (.afterBuild s₁ hdrawn)
      obtain ⟨hrest, ha, hall⟩ := ih (fun t' ht' => hblocks t' (List.mem_cons_of_mem t ht'))
        (hbuild.groundedAt path hs) hput (hn.trans hbuild.drawn_le) h
      exact ⟨hbuild.trans hrest, ha, List.forall_mem_cons.mpr ⟨hgrounded, hall⟩⟩

/-- A term settles **if its references do**. By induction on the term, with one case for
each operator. -/
theorem settles_term {resolve : String → Compiling Automaton}
    (hresolve : ∀ name, SettlesFrom book path (resolve name) (.ref name)) (t : Term) :
    SettlesFrom book path (term resolve t) t := by
  intro s a s' hs h
  -- the induction is on the term; the height of a group is the greatest of its blocks' heights
  match t with
  | .token x =>
      obtain ⟨rfl, rfl⟩ := yields_token.mp h
      exact ⟨.refl s', .single x, 0, .token x⟩
  | .sequence [] =>
      obtain ⟨rfl, rfl⟩ := yields_emptySequence.mp h
      exact ⟨.refl s', .emptyWord, 0, .sequence fun t ht => absurd ht List.not_mem_nil⟩
  | .sequence (block :: rest) =>
      obtain ⟨first, s₁, hfirst, h⟩ := (blockLoop_sequence resolve).yields_first.mp h
      obtain ⟨hprecedes, hbeyond, hgrounded⟩ := settles_term hresolve block s first s₁ hs hfirst
      obtain ⟨hrest, ha, hall⟩ := settles_blocks (blockLoop_sequence resolve)
        (fun ha hb hnm => ⟨ha.append hb hnm, Nat.le_of_lt (lt_drawn_append _ _ _)⟩)
        (fun t ht => settles_term hresolve t)
        (hprecedes.groundedAt path hs) hbeyond hprecedes.drawn_le h
      obtain ⟨k, hk⟩ := Term.Grounded.exists_forall (List.forall_mem_cons.mpr ⟨hgrounded, hall⟩)
      exact ⟨hprecedes.trans hrest, ha, k, .sequence hk⟩
  | .choice [] => exact absurd h not_yields_emptyChoice
  | .choice (block :: rest) =>
      obtain ⟨first, s₁, hfirst, h⟩ := (blockLoop_choice resolve).yields_first.mp h
      obtain ⟨hprecedes, hbeyond, hgrounded⟩ := settles_term hresolve block s first s₁ hs hfirst
      obtain ⟨hrest, ha, hall⟩ := settles_blocks (blockLoop_choice resolve)
        (fun ha hb hnm => ⟨ha.merge hb hnm, le_drawn_merge _ _ _⟩)
        (fun t ht => settles_term hresolve t)
        (hprecedes.groundedAt path hs) hbeyond hprecedes.drawn_le h
      obtain ⟨k, hk⟩ := Term.Grounded.exists_forall (List.forall_mem_cons.mpr ⟨hgrounded, hall⟩)
      exact ⟨hprecedes.trans hrest, ha, k, .choice (List.cons_ne_nil block rest) hk⟩
  | .optional block =>
      obtain ⟨b, hb, rfl⟩ := yields_optional.mp h
      obtain ⟨hprecedes, hbeyond, k, hk⟩ := settles_term hresolve block s b s' hs hb
      exact ⟨hprecedes, hbeyond.optional, k, .optional hk⟩
  | .kleene block =>
      obtain ⟨b, s₁, hb, rfl, rfl⟩ := yields_kleene.mp h
      obtain ⟨hprecedes, hbeyond, k, hk⟩ := settles_term hresolve block s b s₁ hs hb
      exact ⟨hprecedes.trans (.afterBuild s₁ (Nat.le_succ _)), hbeyond.kleene hprecedes.drawn_le, k,
        .kleene hk⟩
  | .plus block =>
      obtain ⟨b, s₁, hb, rfl, rfl⟩ := yields_plus.mp h
      obtain ⟨hprecedes, hbeyond, k, hk⟩ := settles_term hresolve block s b s₁ hs hb
      exact ⟨hprecedes.trans (.afterBuild s₁ (Nat.le_succ _)), hbeyond.plus hprecedes.drawn_le, k,
        .plus hk⟩
  | .ref name =>
      rw [term] at h
      exact hresolve name s a s' hs h
termination_by t
decreasing_by
  all_goals first
    | (have hsize := List.sizeOf_lt_of_mem ht; simp; omega)
    | (simp; omega)
    | simp

/-- A reference settles. The induction is that of `resolve`: on the definitions that are
not being compiled. -/
theorem settles_resolve (book : Rulebook) (path : List String) (name : String) :
    SettlesFrom book path (resolve book path name) (.ref name) := by
  induction hn : unseen book.definitions.keys path using Nat.strong_induction_on
    generalizing path name with
  | _ n ih =>
    intro s a s' hs h
    cases hfinished : s.finished.get? name with
    | some kept =>
        obtain ⟨rfl, rfl⟩ := (yields_resolve_of_kept hfinished).mp h
        exact ⟨.afterBuild s (le_drawn_copy kept s.drawn), .copy kept s.drawn,
          hs.grounded name kept hfinished⟩
    | none =>
        obtain ⟨hpath, body, t, s₁, hbody, hcontent, hterm, rfl⟩ :=
          (yields_resolve_of_new hfinished).mp h
        -- the definition joins those being compiled, so fewer are left for the references in it
        have hless : unseen book.definitions.keys (path ++ [name]) < n := by
          rw [← hn]
          exact unseen_append_lt hbody hpath
        have hinside :
            Session.GroundedAt book (path ++ [name]) { s with inProgress := path ++ [name] } :=
          ⟨rfl, hs.grounded⟩
        obtain ⟨hprecedes, hbeyond, k, hk⟩ :=
          settles_term (fun other => ih _ hless (path ++ [name]) other rfl) t
          _ a s₁ hinside hterm
        have hname : (Term.ref name).Grounded book (k + 1) := .ref hbody hcontent hk
        refine ⟨⟨fun path' hs' => ⟨hs.inProgress_eq.symm.trans hs'.inProgress_eq, ?_⟩,
          hprecedes.drawn_le⟩, hbeyond, k + 1, hname⟩
        -- the definition that has just been finished is grounded like those before
        intro other kept hkept
        rcases OrderedTable.eq_or_of_get?_insert hkept with ⟨rfl, -⟩ | hold
        · exact ⟨k + 1, hname⟩
        · exact (hprecedes.groundedAt _ hinside).grounded other kept hold

end Compiling

end TreeGrammar
