/-
What a run puts on record.

The losses of a definition are recorded when it is compiled for the first reference that
needs it; a copy of its table loses nothing. So what a run records depends on the
definitions that are **done** before it, and on nothing else: it records what is lost in
the term itself, and what is lost in the definitions that the term needs and that are
not done (`Accounts`). Each kind of step accounts for itself, and the accounts of steps
add up (`Accounts.trans`).
-/
import TreeGrammar.Proofs.Compile.Lost
import TreeGrammar.Proofs.Compile.Rerun

set_option autoImplicit false

namespace TreeGrammar

open Automaton Compiling

/-! ## What a term needs and loses -/

namespace Term

mutual

/-- The names that the references in the term **have**. -/
def names : Term → List String
  | token _ => []
  | sequence ts => namesAll ts
  | choice ts => namesAll ts
  | optional t => names t
  | kleene t => names t
  | plus t => names t
  | ref name => [name]

/-- The names that the references in the terms have. -/
def namesAll : List Term → List String
  | [] => []
  | t :: ts => names t ++ namesAll ts

end

variable (defs : OrderedTable String Pattern)

/-- The labels that are lost where terms are put to a group, **one by one**, that
consists of the first terms so far. -/
def lostAtJoints (group : List Term → Term) (done : List Term) : List Term → Set Label
  | [] => ∅
  | t :: rest =>
      {l | ∃ r, (group (done ++ [t])).Expands defs r ∧ l ∈ r.lost} ∪ lostAtJoints group
        (done ++ [t]) rest

mutual

/-- The labels that are **lost in the term**. What is lost in definitions
does not count. -/
def lost : Term → Set Label
  | token _ => ∅
  | sequence [] => ∅
  | sequence (t :: rest) => lost t ∪ (lostAll rest ∪ lostAtJoints defs .sequence [t] rest)
  | choice [] => ∅
  | choice (t :: rest) => lost t ∪ (lostAll rest ∪ lostAtJoints defs .choice [t] rest)
  | optional t => lost t
  | kleene t => lost t
  | plus t => lost t
  | ref _ => ∅

/-- The labels that are lost in the terms, each by itself. -/
def lostAll : List Term → Set Label
  | [] => ∅
  | t :: ts => lost t ∪ lostAll ts

end

end Term

namespace Rulebook

variable (book : Rulebook)

/-- The definition of the name is compiled **as the term**. -/
def Defines (name : String) (t : Term) : Prop :=
  ∃ body, book.definitions.get? name = some body ∧
    Content.ofPattern book.limits body = .ok (.term t)

/-- A definition **uses** those that the references in it are to. -/
def Uses (name other : String) : Prop := ∃ t, book.Defines name t ∧ other ∈ t.names

/-- The definitions that are **needed** for references of the names: their own, and
those that these use, step by step. -/
def needed (names : List String) : Set String :=
  {other | ∃ name ∈ names, Relation.ReflTransGen book.Uses name other}

/-- The labels that are lost **in the definitions**. -/
def lostIn (names : Set String) : Set Label :=
  {l | ∃ name ∈ names, ∃ t, book.Defines name t ∧ l ∈ t.lost book.definitions}

/-- What the definitions use is **among them**. -/
def Closed (names : Set String) : Prop :=
  ∀ name ∈ names, ∀ other, book.Uses name other → other ∈ names

variable {book : Rulebook} {names others : List String} {name : String}
  {done : Set String} {t t' : Term}

theorem Defines.unique (h : book.Defines name t) (h' : book.Defines name t') : t = t' := by
  obtain ⟨body, hdef, hcontent⟩ := h
  obtain ⟨body', hdef', hcontent'⟩ := h'
  rw [hdef, Option.some.injEq] at hdef'
  rw [← hdef', hcontent, Except.ok.injEq] at hcontent'
  exact Content.term.inj hcontent'

@[simp] theorem needed_nil : book.needed [] = ∅ := by
  ext other
  simp [needed]

/-- Names that are taken together need what each part needs. The needs of a content are
read off term by term with this. -/
theorem needed_append : book.needed (names ++ others) = book.needed names ∪ book.needed others := by
  ext other
  simp only [needed, List.mem_append, Set.mem_ofPred_eq, Set.mem_union, or_and_right, exists_or]

/-- What is needed is **closed**: with a definition it has those that the definition
mentions. It is the least such set, which is why a definition that has been finished
once need not be looked into again. -/
theorem closed_needed (names : List String) : book.Closed (book.needed names) := by
  rintro name ⟨first, hfirst, hreach⟩ other huses
  exact ⟨first, hfirst, hreach.tail huses⟩

theorem Closed.union {names names' : Set String} (h : book.Closed names) (h' : book.Closed names') :
    book.Closed (names ∪ names') := by
  rintro name (hname | hname) other huses
  · exact .inl (h name hname other huses)
  · exact .inr (h' name hname other huses)

/-- Definitions that are closed have among them **all that one of them needs**. By
induction on how the name comes to be needed. -/
theorem Closed.needed_subset (h : book.Closed done) (hname : name ∈ done) :
    book.needed [name] ⊆ done := by
  rintro other ⟨first, hfirst, hreach⟩
  obtain rfl := List.mem_singleton.mp hfirst
  induction hreach with
  | refl => exact hname
  | tail _ huses ih => exact h _ ih _ huses

/-- A definition needs itself, and what is needed **for its term**. One definition is
unfolded here, and what it mentions is left. -/
theorem needed_singleton (h : book.Defines name t) :
    book.needed [name] = insert name (book.needed t.names) := by
  ext other
  have hfirst : other ∈ book.needed [name] ↔ Relation.ReflTransGen book.Uses name other := by
    simp [needed]
  rw [hfirst, Relation.ReflTransGen.cases_head_iff, Set.mem_insert_iff, eq_comm]
  refine or_congr_right ⟨?_, ?_⟩
  · rintro ⟨next, ⟨t', ht', hnext⟩, hreach⟩
    exact ⟨next, h.unique ht' ▸ hnext, hreach⟩
  · rintro ⟨next, hnext, hreach⟩
    exact ⟨next, ⟨t, h, hnext⟩, hreach⟩

@[simp] theorem lostIn_empty : book.lostIn ∅ = ∅ := by
  ext l
  simp [lostIn]

/-- What is lost in two sets of definitions is lost in the one or in the other. -/
theorem lostIn_union (names names' : Set String) :
    book.lostIn (names ∪ names') = book.lostIn names ∪ book.lostIn names' := by
  ext l
  simp only [lostIn, Set.mem_union, Set.mem_ofPred_eq, or_and_right, exists_or]

theorem lostIn_mono {names names' : Set String} (h : names ⊆ names') :
    book.lostIn names ⊆ book.lostIn names' := by
  rintro l ⟨name, hname, hlost⟩
  exact ⟨name, h hname, hlost⟩

/-- One more definition loses what its term loses. This is the step that finishing a
definition makes in the account. -/
theorem lostIn_insert (h : book.Defines name t) (names : Set String) :
    book.lostIn (insert name names) = t.lost book.definitions ∪ book.lostIn names := by
  rw [Set.insert_eq, lostIn_union]
  congr 1
  ext l
  constructor
  · rintro ⟨_, rfl, t', ht', hl⟩
    exact h.unique ht' ▸ hl
  · exact fun hl => ⟨name, rfl, t, h, hl⟩

end Rulebook

/-! ## Accounts -/

/-- The labels of the edges that the warnings are about. -/
def labelsOf (ws : List Warning) : Set Label := {l | ∃ w ∈ ws, w.collision.label = l}

@[simp] theorem labelsOf_nil : labelsOf [] = ∅ := by
  ext l
  simp [labelsOf]

/-- The labels of warnings are gathered list by list. -/
theorem labelsOf_append (ws vs : List Warning) :
    labelsOf (ws ++ vs) = labelsOf ws ∪ labelsOf vs := by
  ext l
  simp only [labelsOf, List.mem_append, Set.mem_ofPred_eq, Set.mem_union, or_and_right, exists_or]

/-- The definitions that the session has finished. -/
def Session.done (s : Session) : Set String := {name | ∃ a, s.finished.get? name = some a}

/-- From one session to the other the needed definitions have become done, and the
warnings that have been added are all of one place: they are about **what is lost**, and
about what is lost in needed definitions that had not been done. -/
structure Accounts (book : Rulebook) (needed : Set String) (lost : Set Label) (s s' : Session) :
    Prop where
  location_eq : s'.location = s.location
  done_eq : s'.done = s.done ∪ needed
  warnings : ∃ more, s'.warnings = s.warnings ++ more ∧ (∀ w ∈ more, w.location = s.location) ∧
    labelsOf more = lost ∪ book.lostIn (needed \ s.done)

variable {book : Rulebook} {needed needed₁ : Set String} {lost lost₁ : Set Label}
  {s s₁ s' : Session} {t : Term} {a : Automaton} {names : List String}

namespace Accounts

/-- A step that does nothing needs nothing and loses nothing. -/
theorem refl (book : Rulebook) (s : Session) : Accounts book ∅ ∅ s s :=
  ⟨rfl, by simp, [], by simp⟩

/-- The accounts of two steps **add up**: what the first has done is no loss of
the second. What is needed by both is accounted for once, as a definition is
compiled once. -/
theorem trans (h : Accounts book needed lost s s₁) (h' : Accounts book needed₁ lost₁ s₁ s') :
    Accounts book (needed ∪ needed₁) (lost ∪ lost₁) s s' := by
  obtain ⟨more, hmore, hplace, hlabels⟩ := h.warnings
  obtain ⟨more', hmore', hplace', hlabels'⟩ := h'.warnings
  refine ⟨h'.location_eq.trans h.location_eq, ?_, more ++ more', ?_, ?_, ?_⟩
  · rw [h'.done_eq, h.done_eq, Set.union_assoc]
  · rw [hmore', hmore, List.append_assoc]
  · intro w hw
    rcases List.mem_append.mp hw with hw | hw
    · exact hplace w hw
    · exact (hplace' w hw).trans h.location_eq
  · have hnew : (needed ∪ needed₁) \ s.done = (needed \ s.done) ∪ (needed₁ \ s₁.done) := by
      rw [h.done_eq]
      ext name
      simp only [Set.mem_sdiff, Set.mem_union]
      tauto
    rw [labelsOf_append, hlabels, hlabels', hnew, Rulebook.lostIn_union, Set.union_union_union_comm]

/-- A step that builds a table loses what building it loses, and finishes
no definition. -/
theorem afterBuild (book : Rulebook) (s : Session) (b : Built) :
    Accounts book ∅ {l | l ∈ b.lost} s (afterBuild s b) := by
  refine ⟨rfl, (Set.union_empty _).symm, b.collisions.map (Warning.mk s.location), rfl, ?_, ?_⟩
  · intro w hw
    obtain ⟨c, -, rfl⟩ := List.mem_map.mp hw
    rfl
  · ext l
    simp [labelsOf, Built.lost]

/-- An operator that loses nothing has nothing to account for. -/
theorem build {b : Built} (h : Accounts book needed lost s s₁) (hb : b.collisions = []) :
    Accounts book needed lost s (Compiling.afterBuild s₁ b) := by
  have htotal := h.trans (.afterBuild book s₁ b)
  simpa [Built.lost, hb] using htotal

/-- What is finished stays closed if the names that are needed are closed. The sets of
definitions in an account are closed wherever a run starts from a new session. -/
theorem closed (h : Accounts book needed lost s s') (hneeded : book.Closed needed)
    (hs : book.Closed s.done) : book.Closed s'.done := by
  rw [h.done_eq]
  exact hs.union hneeded

end Accounts

/-- Every run that succeeds, in a session that is sound and has done what its
definitions use, **accounts for the term**. -/
def AccountsFrom (book : Rulebook) (m : Compiling Automaton) (t : Term) : Prop :=
  ∀ s a s', s.Sound book.definitions → book.Closed s.done → m.Yields s a s' →
    Accounts book (book.needed t.names) (t.lost book.definitions) s s'

/-! ## Terms -/

namespace Delivers

variable {defs : OrderedTable String Pattern} {s₂ : Session} {before b : Automaton}
  {u : Term} {r q : Regex} {cs ds : List Collision}

/-- What is lost at a joint depends on **the expansions** of what is joined. Tables
made elsewhere from the same expansions lose the same, since losses are known by
their labels. -/
theorem lost_append (hbefore : Delivers defs u s before s₁ r cs)
    (h : Delivers defs t s₁ b s₂ q ds) : (append s₂.drawn before b).lost = (Regex.seq r q).lost :=
  hbefore.made.lost_append h.made (hbefore.within.mono h.loses.drawn_le) h.within

/-- One table or the other loses **exactly the labels** that the expression says: those
that open both sides. The tables themselves, and the session, leave no trace in it. -/
theorem lost_merge (hbefore : Delivers defs u s before s₁ r cs) (h : Delivers defs t s₁ b s₂ q ds) :
    (merge s₂.drawn before b).lost = (Regex.alt r q).lost :=
  hbefore.made.lost_merge h.made (hbefore.within.mono h.loses.drawn_le) h.within

end Delivers

namespace Compiling

section

variable {resolve : String → Compiling Automaton}

/-- Blocks that are compiled **one by one**, each put to those before, account for
themselves and for the joints. -/
theorem accounts_group {loop : Automaton → List Term → Compiling Automaton}
    {group : List Term → Term} {put : Nat → Automaton → Automaton → Built}
    (hloop : BlockLoop resolve group loop put)
    (hput : ∀ {s s₁ s₂ done before t b r q cs ds}, done ≠ [] →
      Delivers book.definitions (group done) s before s₁ r cs →
      Delivers book.definitions t s₁ b s₂ q ds → ∃ r' cs', (put s₂.drawn before b).lost = r'.lost ∧
        Delivers book.definitions (group (done ++ [t])) s (put s₂.drawn before b).automaton
          (afterBuild s₂ (put s₂.drawn before b)) r' cs')
    {rest : List Term} (hdelivers : ∀ t ∈ rest, AlwaysDelivers book.definitions (term resolve t) t)
    (hblocks : ∀ t ∈ rest, AccountsFrom book (term resolve t) t) {before : Automaton}
    {done : List Term} {r : Regex} {cs : List Collision} (hne : done ≠ [])
    (hbefore : Delivers book.definitions (group done) s before s₁ r cs) (hs₁ : book.Closed s₁.done)
    (h : (loop before rest).Yields s₁ a s') : Accounts book (book.needed (Term.namesAll rest))
      (Term.lostAll book.definitions rest ∪ Term.lostAtJoints book.definitions group done rest) s₁
      s' := by
  induction rest generalizing before done s₁ r cs with
  | nil =>
      obtain ⟨rfl, rfl⟩ := hloop.yields_nil.mp h
      rw [Term.namesAll, Term.lostAll, Term.lostAtJoints, Rulebook.needed_nil, Set.union_empty]
      exact .refl book s'
  | cons t rest ih =>
      obtain ⟨b, s₂, hb, h⟩ := hloop.yields_cons.mp h
      obtain ⟨q, ds, hq⟩ := hdelivers t List.mem_cons_self s₁ b s₂ hbefore.sound hb
      have hblock := hblocks t List.mem_cons_self s₁ b s₂ hbefore.sound hs₁ hb
      obtain ⟨r', cs', hlost, hboth⟩ := hput hne hbefore hq
      -- what this joint loses depends on the expansion of the group so far, of which there
      -- is one
      have hjoint : {l | l ∈ (put s₂.drawn before b).lost} =
          {l | ∃ r, (group (done ++ [t])).Expands book.definitions r ∧ l ∈ r.lost} := by
        ext l
        rw [Set.mem_ofPred_eq, Set.mem_ofPred_eq, hlost]
        refine ⟨fun hl => ⟨r', hboth.expands, hl⟩, ?_⟩
        rintro ⟨r, hr, hl⟩
        rwa [hboth.expands.unique hr]
      have hsecond := Accounts.afterBuild book s₂ (put s₂.drawn before b)
      rw [hjoint] at hsecond
      have hfirst := hblock.trans hsecond
      rw [Set.union_empty] at hfirst
      have hrest := ih (fun t' ht' => hdelivers t' (List.mem_cons_of_mem t ht'))
        (fun t' ht' => hblocks t' (List.mem_cons_of_mem t ht')) (by simp) hboth
        (hfirst.closed (Rulebook.closed_needed _) hs₁) h
      rw [Term.namesAll, Rulebook.needed_append, Term.lostAll, Term.lostAtJoints,
        Set.union_union_union_comm]
      exact hfirst.trans hrest

/-- A term accounts for itself **if its references do**. By induction on the term; the
case of a reference is the assumption, and every operator adds the account of its
operands to its own. -/
theorem accounts_term
    (hdelivers : ∀ name, AlwaysDelivers book.definitions (resolve name) (.ref name))
    (hresolve : ∀ name, AccountsFrom book (resolve name) (.ref name)) (t : Term) :
    AccountsFrom book (term resolve t) t := by
  intro s a s' hs hclosed h
  -- the induction is on the term; a group is its first block and a loop over the others, and
  -- only a sequence or a choice can lose anything at its joints
  match t with
  | .token x =>
      obtain ⟨rfl, rfl⟩ := yields_token.mp h
      rw [Term.names, Term.lost, Rulebook.needed_nil]
      exact .refl book s'
  | .sequence [] =>
      obtain ⟨rfl, rfl⟩ := yields_emptySequence.mp h
      rw [Term.names, Term.namesAll, Term.lost, Rulebook.needed_nil]
      exact .refl book s'
  | .sequence (block :: rest) =>
      obtain ⟨first, s₁, hfirst, h⟩ := (blockLoop_sequence resolve).yields_first.mp h
      obtain ⟨r, cs, hr⟩ := delivers_term hdelivers block s first s₁ hs hfirst
      have hblock := accounts_term hdelivers hresolve block s first s₁ hs hclosed hfirst
      have hrest := accounts_group (blockLoop_sequence resolve)
        (fun hne hbefore h => ⟨_, _, hbefore.lost_append h, hbefore.sequenceSnoc hne h⟩)
        (fun t _ => delivers_term hdelivers t) (fun t ht => accounts_term hdelivers hresolve t)
        (List.cons_ne_nil block [])
        ⟨.sequenceOne hr.expands, hr.made, hr.within, hr.sound, hr.loses⟩
        (hblock.closed (Rulebook.closed_needed _) hclosed) h
      rw [Term.names, Term.namesAll, Rulebook.needed_append, Term.lost]
      exact hblock.trans hrest
  | .choice [] => exact absurd h not_yields_emptyChoice
  | .choice (block :: rest) =>
      obtain ⟨first, s₁, hfirst, h⟩ := (blockLoop_choice resolve).yields_first.mp h
      obtain ⟨r, cs, hr⟩ := delivers_term hdelivers block s first s₁ hs hfirst
      have hblock := accounts_term hdelivers hresolve block s first s₁ hs hclosed hfirst
      have hrest := accounts_group (blockLoop_choice resolve)
        (fun hne hbefore h => ⟨_, _, hbefore.lost_merge h, hbefore.choiceSnoc hne h⟩)
        (fun t _ => delivers_term hdelivers t) (fun t ht => accounts_term hdelivers hresolve t)
        (List.cons_ne_nil block []) ⟨.choiceOne hr.expands, hr.made, hr.within, hr.sound, hr.loses⟩
        (hblock.closed (Rulebook.closed_needed _) hclosed) h
      rw [Term.names, Term.namesAll, Rulebook.needed_append, Term.lost]
      exact hblock.trans hrest
  | .optional block =>
      obtain ⟨b, hb, rfl⟩ := yields_optional.mp h
      rw [Term.names, Term.lost]
      exact accounts_term hdelivers hresolve block s b s' hs hclosed hb
  | .kleene block =>
      obtain ⟨b, s₁, hb, rfl, rfl⟩ := yields_kleene.mp h
      rw [Term.names, Term.lost]
      exact (accounts_term hdelivers hresolve block s b s₁ hs hclosed hb).build rfl
  | .plus block =>
      obtain ⟨b, s₁, hb, rfl, rfl⟩ := yields_plus.mp h
      rw [Term.names, Term.lost]
      exact (accounts_term hdelivers hresolve block s b s₁ hs hclosed hb).build rfl
  | .ref name =>
      rw [term] at h
      exact hresolve name s a s' hs hclosed h
termination_by t
decreasing_by
  all_goals first
    | (have hsize := List.sizeOf_lt_of_mem ht; simp; omega)
    | (simp; omega)
    | simp

end

/-! ## References -/

/-- A reference accounts for its definition: **the first** for all its losses, a later
one for nothing. The induction is that of `resolve`. -/
theorem accounts_resolve (book : Rulebook) (path : List String) (name : String) :
    AccountsFrom book (resolve book path name) (.ref name) := by
  induction hn : unseen book.definitions.keys path using Nat.strong_induction_on
    generalizing path name with
  | _ n ih =>
    intro s a s' hs hclosed h
    rw [Term.names, Term.lost]
    cases hfinished : s.finished.get? name with
    | some kept =>
        obtain ⟨rfl, rfl⟩ := (yields_resolve_of_kept hfinished).mp h
        -- a copy loses nothing, and what the definition needs has been done with it
        have hdone := hclosed.needed_subset ⟨kept, hfinished⟩
        refine ⟨rfl, (Set.union_eq_left.mpr hdone).symm, [], ?_⟩
        simp [afterBuild, Automaton.copy, Set.sdiff_eq_empty.mpr hdone]
    | none =>
        obtain ⟨hpath, body, t, s₁, hdef, hcontent, hterm, rfl⟩ :=
          (yields_resolve_of_new hfinished).mp h
        have hless : unseen book.definitions.keys (path ++ [name]) < n := by
          rw [← hn]
          exact unseen_append_lt hdef hpath
        have hinside := accounts_term (delivers_resolve book (path ++ [name]))
          (fun other => ih _ hless (path ++ [name]) other rfl) t
          { s with inProgress := path ++ [name] } a s₁ hs hclosed hterm
        obtain ⟨more, hmore, hplace, hlabels⟩ := hinside.warnings
        have hnew : name ∉ s.done := by simp [Session.done, hfinished]
        have hdefines : book.Defines name t := ⟨body, hdef, hcontent⟩
        rw [Rulebook.needed_singleton hdefines]
        refine ⟨hinside.location_eq, ?_, more, hmore, hplace, ?_⟩
        · have hinsert :
              Session.done { s₁ with inProgress := path, finished := s₁.finished.insert name a } =
                insert name s₁.done := by
            ext other
            simp only [Session.done, OrderedTable.get?_insert, Set.mem_ofPred_eq,
              Set.mem_insert_iff]
            split
            · next heq => simp [heq]
            · next hother => simp [Ne.symm hother]
          rw [hinsert, hinside.done_eq, Set.union_insert]
          rfl
        · rw [hlabels, Set.insert_sdiff_of_notMem _ hnew, Rulebook.lostIn_insert hdefines,
            Set.empty_union]
          rfl

/-! ## Contents and patterns -/

/-- A bounded term is compiled as the term is, once its size has been checked. The check
reads the definitions and changes nothing. -/
theorem accounts_boundedTerm (book : Rulebook) (t : Term) :
    AccountsFrom book (boundedTerm book t) t := by
  intro s a s' hs hclosed h
  exact accounts_term (delivers_resolve book s.inProgress)
    (accounts_resolve book s.inProgress) t s a s' hs hclosed (yields_boundedTerm.mp h).1

/-- The blocks of an interleave need and lose what their terms do, one after the other.
By induction on the blocks, as the loop of the program runs. -/
theorem accounts_blocks {ts : List Term} {as : List Automaton} (hs : s.Sound book.definitions)
    (hclosed : book.Closed s.done) (h : (blocks book ts).Yields s as s') :
    Accounts book (book.needed (Term.namesAll ts)) (Term.lostAll book.definitions ts) s s' := by
  induction ts generalizing s as with
  | nil =>
      obtain ⟨rfl, rfl⟩ := yields_blocks_nil.mp h
      rw [Term.namesAll, Term.lostAll, Rulebook.needed_nil]
      exact .refl book s'
  | cons t ts ih =>
      obtain ⟨a, s₁, rest, ha, hrest, rfl⟩ := yields_blocks_cons.mp h
      obtain ⟨r, cs, hdelivers⟩ := delivers_boundedTerm hs ha
      have hfirst := accounts_boundedTerm book t s a s₁ hs hclosed ha
      rw [Term.namesAll, Rulebook.needed_append, Term.lostAll]
      exact hfirst.trans
        (ih hdelivers.sound (hfirst.closed (Rulebook.closed_needed _) hclosed) hrest)

end Compiling

/-- The terms of a content: the whole one, or the blocks. -/
def Content.terms : Content → List Term
  | term t => [t]
  | interleave ts => ts

namespace Rulebook

variable {p : Pattern} {c c' : Content}

/-- The pattern is compiled **as the content**: a lone reference to an interleave as
the interleave. -/
def StandsFor (book : Rulebook) (p : Pattern) (c : Content) : Prop :=
  ∃ normal whole, p.normalize = .ok normal ∧ wholeContent book [] normal = pure whole ∧
    Content.ofPattern book.limits whole = .ok c

theorem StandsFor.unique (h : book.StandsFor p c) (h' : book.StandsFor p c') : c = c' := by
  obtain ⟨normal, whole, hnormal, hwhole, hc⟩ := h
  obtain ⟨normal', whole', hnormal', hwhole', hc'⟩ := h'
  rw [hnormal, Except.ok.injEq] at hnormal'
  subst hnormal'
  have hyields : (pure whole : Compiling Pattern).Yields {} whole' {} := by
    rw [← hwhole, hwhole']
    exact yields_pure.mpr ⟨rfl, rfl⟩
  rw [(yields_pure.mp hyields).1, hc, Except.ok.injEq] at hc'
  exact hc'

/-- The definitions that are needed **for the pattern**. -/
def neededFor (book : Rulebook) (p : Pattern) : Set String :=
  {name | ∃ c, book.StandsFor p c ∧ name ∈ book.needed (Term.namesAll c.terms)}

/-- The labels that are lost in the pattern **itself**. -/
def lostFor (book : Rulebook) (p : Pattern) : Set Label :=
  {l | ∃ c, book.StandsFor p c ∧ l ∈ Term.lostAll book.definitions c.terms}

/-- What a pattern needs is what the names in its content need. -/
theorem StandsFor.neededFor_eq (h : book.StandsFor p c) :
    book.neededFor p = book.needed (Term.namesAll c.terms) := by
  ext name
  refine ⟨?_, fun hname => ⟨c, h, hname⟩⟩
  rintro ⟨c', h', hname⟩
  rwa [h.unique h']

/-- What a pattern loses by itself is what the terms of its content lose. The
definitions it needs lose what they lose in their own account. -/
theorem StandsFor.lostFor_eq (h : book.StandsFor p c) :
    book.lostFor p = Term.lostAll book.definitions c.terms := by
  ext l
  refine ⟨?_, fun hl => ⟨c, h, hl⟩⟩
  rintro ⟨c', h', hl⟩
  rwa [h.unique h']

/-- What a pattern needs is closed, or empty where it stands for no content. The account
of a pattern is closed in either case. -/
theorem closed_neededFor (book : Rulebook) (p : Pattern) : book.Closed (book.neededFor p) := by
  rintro name ⟨c, hc, hname⟩ other huses
  exact ⟨c, hc, closed_needed _ name hname other huses⟩

end Rulebook

namespace Compiling

/-- A content needs and loses what its terms do, be it one term or several. The terms of
an interleave are compiled as blocks. -/
theorem accounts_content {c : Content} {x : Compiled} (hs : s.Sound book.definitions)
    (hclosed : book.Closed s.done) (h : (content book c).Yields s x s') :
    Accounts book (book.needed (Term.namesAll c.terms))
      (Term.lostAll book.definitions c.terms) s s' := by
  cases c with
  | term t =>
      obtain ⟨a, ha, rfl⟩ := yields_content_term.mp h
      simpa [Content.terms, Term.namesAll, Term.lostAll] using accounts_boundedTerm book t s a
        s' hs hclosed ha
  | interleave ts =>
      obtain ⟨as, has, rfl⟩ := yields_content_interleave.mp h
      exact accounts_blocks hs hclosed has

/-- A pattern that compiles has a content, and **accounts for it**. -/
theorem accounts_pattern {p : Pattern} {x : Compiled} (hs : s.Sound book.definitions)
    (hclosed : book.Closed s.done) (h : (pattern book p).Yields s x s') :
    Accounts book (book.neededFor p) (book.lostFor p) s s' := by
  obtain ⟨normal, whole, c, hnormal, hwhole, hc, h⟩ := yields_pattern h
  obtain ⟨found, hfound⟩ := exists_wholeContent_eq book [] normal
  rw [hfound, yields_orFailHere] at hwhole
  have hstands : book.StandsFor p c :=
    ⟨normal, whole, hnormal, by rw [hfound, hwhole.1, orFailHere], hc⟩
  rw [hstands.neededFor_eq, hstands.lostFor_eq]
  exact accounts_content hs hclosed h

end Compiling

end TreeGrammar
