/-
What a run of a compilation delivers.

A run draws numbers, compiles definitions and keeps them, and records what is lost.
`Sound` is what it can rely on: a table that is kept was made for its definition, on
numbers that have been drawn. `Delivers` is what a run leads to: a table made for the
expansion of what was compiled, a session that is sound again, and warnings that are the
former ones and the losses of this table. Term by term (`delivers_term`) and definition
by definition (`delivers_resolve`), a run that succeeds delivers such a table.
-/
import TreeGrammar.Proofs.Compile.Made
import TreeGrammar.Proofs.Compile.Yields

set_option autoImplicit false

namespace TreeGrammar

open Automaton Compiling

/-- The collision **is recorded** in a warning of the session. -/
def Session.Records (s : Session) (c : Collision) : Prop := ∃ w ∈ s.warnings, w.collision = c

/-- Every table that the session keeps was **made for its definition**, on numbers that
have been drawn, and what was lost then is recorded. -/
def Session.Sound (defs : OrderedTable String Pattern) (s : Session) : Prop :=
  ∀ name a, s.finished.get? name = some a → ∃ r cs, (Term.ref name).Expands defs r ∧ Made r a cs ∧
    a.Within s.drawn ∧ ∀ c ∈ cs, s.Records c

/-- From one session to a later one **no more is lost** than the collisions, and these
are recorded. -/
structure Session.Loses (s s' : Session) (cs : List Collision) : Prop where
  drawn_le : s.drawn ≤ s'.drawn
  keeps : ∀ w ∈ s.warnings, w ∈ s'.warnings
  records : ∀ c ∈ cs, s'.Records c
  only : ∀ w ∈ s'.warnings, w ∈ s.warnings ∨ w.collision ∈ cs

/-- The run from one session to the other **delivers** a table for the term: it is made
for the expansion of the term, and what was lost is on record. -/
structure Delivers (defs : OrderedTable String Pattern) (t : Term) (s : Session) (a : Automaton)
    (s' : Session) (r : Regex) (cs : List Collision) : Prop where
  expands : t.Expands defs r
  made : Made r a cs
  within : a.Within s'.drawn
  sound : s'.Sound defs
  loses : s.Loses s' cs

variable {defs : OrderedTable String Pattern} {s s₁ s' : Session} {t : Term}
  {a b : Automaton} {r q : Regex} {cs ds : List Collision} {c : Collision}

namespace Session

/-- What is on record stays on record, since warnings are only added. -/
theorem Records.mono (h : s.Records c) (hkeeps : ∀ w ∈ s.warnings, w ∈ s'.warnings) :
    s'.Records c := by
  obtain ⟨w, hw, hc⟩ := h
  exact ⟨w, hkeeps w hw, hc⟩

theorem Loses.refl (s : Session) : s.Loses s [] :=
  ⟨Nat.le_refl _, fun _ hw => hw, fun _ hc => absurd hc (by simp), fun _ hw => .inl hw⟩

/-- One step after another loses what the first loses and then what the second does.
Losses are listed in the order in which they were reported. -/
theorem Loses.trans (h : s.Loses s₁ cs) (h' : s₁.Loses s' ds) : s.Loses s' (cs ++ ds) := by
  refine ⟨Nat.le_trans h.drawn_le h'.drawn_le, fun w hw => h'.keeps w (h.keeps w hw), ?_, ?_⟩
  · intro c hc
    rcases List.mem_append.mp hc with hc | hc
    · exact (h.records c hc).mono h'.keeps
    · exact h'.records c hc
  · intro w hw
    rcases h'.only w hw with hw | hw
    · rcases h.only w hw with hw | hw
      · exact .inl hw
      · exact .inr (List.mem_append_left ds hw)
    · exact .inr (List.mem_append_right cs hw)

/-- Building a table loses the edges that the operator says, and **records each of
them**. This is the only step of the compiler that adds a warning. -/
theorem loses_afterBuild (s : Session) (b : Built) (h : s.drawn ≤ b.drawn) :
    s.Loses (afterBuild s b) b.collisions := by
  refine ⟨h, fun w hw => List.mem_append_left _ hw, ?_, ?_⟩
  · intro c hc
    exact ⟨⟨s.location, c⟩, List.mem_append_right _ (List.mem_map.mpr ⟨c, hc, rfl⟩), rfl⟩
  · intro w hw
    rcases List.mem_append.mp hw with hw | hw
    · exact .inl hw
    · obtain ⟨c, hc, rfl⟩ := List.mem_map.mp hw
      exact .inr hc

/-- A session stays sound while it **keeps the same tables** and only draws and records
more. A definition that is kept was made from its own expansion, and what it lost is
still on record. -/
theorem Sound.mono (hs : s.Sound defs) (hfinished : s'.finished = s.finished)
    (h : s.Loses s' cs) : s'.Sound defs := by
  intro name a ha
  rw [hfinished] at ha
  obtain ⟨r, cs, hr, hmade, hwithin, hcs⟩ := hs name a ha
  exact ⟨r, cs, hr, hmade, hwithin.mono h.drawn_le, fun c hc => (hcs c hc).mono h.keeps⟩

end Session

open Session

/-- An operator at the end of a run. Every operator in a term comes to this, once its
operands have been compiled. -/
theorem delivers_build {b : Built} (hsound : s₁.Sound defs) (hloses : s.Loses s₁ cs)
    (hexpands : t.Expands defs r) (hmade : Made r b.automaton (cs ++ b.collisions))
    (hdrawn : s₁.drawn ≤ b.drawn) (hwithin : b.automaton.Within b.drawn) :
    Delivers defs t s b.automaton (afterBuild s₁ b) r (cs ++ b.collisions) where
  expands := hexpands
  made := hmade
  within := hwithin
  sound := hsound.mono rfl (loses_afterBuild s₁ b hdrawn)
  loses := hloses.trans (loses_afterBuild s₁ b hdrawn)

/-! ## Terms -/

/-- Every run that succeeds from a sound session **delivers** a table for the term. -/
def AlwaysDelivers (defs : OrderedTable String Pattern) (m : Compiling Automaton) (t : Term) :
    Prop :=
  ∀ s a s', s.Sound defs → m.Yields s a s' → ∃ r cs, Delivers defs t s a s' r cs

section

variable {resolve : String → Compiling Automaton}

/-- One more block **behind** those of a sequence. The group of the blocks so far is a
sequence again, so the loop can go on from it. -/
theorem Delivers.sequenceSnoc {done : List Term} {before : Automaton} {s₂ : Session}
    (hbefore : Delivers defs (.sequence done) s before s₁ r cs) (hne : done ≠ [])
    (h : Delivers defs t s₁ b s₂ q ds) :
    Delivers defs (.sequence (done ++ [t])) s (append s₂.drawn before b).automaton
      (afterBuild s₂ (append s₂.drawn before b)) (.seq r q)
      (cs ++ ds ++ (append s₂.drawn before b).collisions) := by
  -- the table so far keeps its numbers while this block draws more of them
  have hwithin := hbefore.within.mono h.loses.drawn_le
  exact delivers_build h.sound (hbefore.loses.trans h.loses)
    (.sequenceSnoc hne hbefore.expands h.expands)
    (.seq s₂.drawn hbefore.made h.made hwithin h.within) (Nat.le_of_lt (lt_drawn_append _ _ _))
    (within_append hbefore.made.wellFormed h.made.wellFormed hwithin h.within)

/-- One more block **beside** those of a choice. -/
theorem Delivers.choiceSnoc {done : List Term} {before : Automaton} {s₂ : Session}
    (hbefore : Delivers defs (.choice done) s before s₁ r cs) (hne : done ≠ [])
    (h : Delivers defs t s₁ b s₂ q ds) :
    Delivers defs (.choice (done ++ [t])) s (merge s₂.drawn before b).automaton
      (afterBuild s₂ (merge s₂.drawn before b)) (.alt r q)
      (cs ++ ds ++ (merge s₂.drawn before b).collisions) := by
  have hwithin := hbefore.within.mono h.loses.drawn_le
  exact delivers_build h.sound (hbefore.loses.trans h.loses)
    (.choiceSnoc hne hbefore.expands h.expands) (.alt s₂.drawn hbefore.made h.made hwithin h.within)
    (le_drawn_merge _ _ _) (within_merge hwithin h.within)

/-- Blocks that are compiled **one by one**, each put to those before, deliver a table
for their group if putting one more there does. -/
theorem delivers_blocks {loop : Automaton → List Term → Compiling Automaton}
    {group : List Term → Term} {put : Nat → Automaton → Automaton → Built}
    (hloop : BlockLoop resolve group loop put)
    (hput : ∀ {done before t b s₁ s₂ r q cs ds}, done ≠ [] →
      Delivers defs (group done) s before s₁ r cs → Delivers defs t s₁ b s₂ q ds →
      ∃ r' cs', Delivers defs (group (done ++ [t])) s
        (put s₂.drawn before b).automaton (afterBuild s₂ (put s₂.drawn before b)) r' cs')
    {rest : List Term} (hblocks : ∀ t ∈ rest, AlwaysDelivers defs (term resolve t) t)
    {before : Automaton} {done : List Term} (hne : done ≠ [])
    (hbefore : Delivers defs (group done) s before s₁ r cs)
    (h : (loop before rest).Yields s₁ a s') :
    ∃ r cs, Delivers defs (group (done ++ rest)) s a s' r cs := by
  -- the blocks done so far are a group of their own, to which the next one is put
  induction rest generalizing before done s₁ r cs with
  | nil =>
      obtain ⟨rfl, rfl⟩ := hloop.yields_nil.mp h
      rw [List.append_nil]
      exact ⟨r, cs, hbefore⟩
  | cons t rest ih =>
      obtain ⟨b, s₂, hb, h⟩ := hloop.yields_cons.mp h
      obtain ⟨q, ds, hdelivers⟩ := hblocks t List.mem_cons_self s₁ b s₂ hbefore.sound hb
      obtain ⟨_, _, hdelivers'⟩ := hput hne hbefore hdelivers
      have hrest := ih (fun t' ht' => hblocks t' (List.mem_cons_of_mem t ht'))
        (by simp) hdelivers' h
      rwa [List.append_assoc] at hrest

/-- The blocks of a sequence deliver its table, after those that have been compiled.
Both are instances of what holds of any loop over blocks. -/
theorem delivers_sequence {rest : List Term}
    (hblocks : ∀ t ∈ rest, AlwaysDelivers defs (term resolve t) t) {before : Automaton}
    {done : List Term} (hne : done ≠ []) (hbefore : Delivers defs (.sequence done) s before s₁ r cs)
    (h : (Compiling.sequence resolve before rest).Yields s₁ a s') :
    ∃ r cs, Delivers defs (.sequence (done ++ rest)) s a s' r cs :=
  delivers_blocks (blockLoop_sequence resolve)
    (fun hne hbefore h => ⟨_, _, hbefore.sequenceSnoc hne h⟩) hblocks hne hbefore h

/-- The blocks of a choice deliver its table, after those that have been compiled. -/
theorem delivers_choice {rest : List Term}
    (hblocks : ∀ t ∈ rest, AlwaysDelivers defs (term resolve t) t) {before : Automaton}
    {done : List Term} (hne : done ≠ []) (hbefore : Delivers defs (.choice done) s before s₁ r cs)
    (h : (Compiling.choice resolve before rest).Yields s₁ a s') :
    ∃ r cs, Delivers defs (.choice (done ++ rest)) s a s' r cs :=
  delivers_blocks (blockLoop_choice resolve)
    (fun hne hbefore h => ⟨_, _, hbefore.choiceSnoc hne h⟩) hblocks hne hbefore h

/-- A term delivers its table **if its references do**. By induction on the term, with
one case for each operator. -/
theorem delivers_term (hresolve : ∀ name, AlwaysDelivers defs (resolve name) (.ref name))
    (t : Term) : AlwaysDelivers defs (term resolve t) t := by
  intro s a s' hs h
  match t with
  | .token x =>
      obtain ⟨rfl, rfl⟩ := yields_token.mp h
      exact ⟨_, _, .token x, .token x, within_single x _, hs, .refl s'⟩
  | .sequence [] =>
      obtain ⟨rfl, rfl⟩ := yields_emptySequence.mp h
      exact ⟨_, _, .sequenceNil, .one, (within_blank _).optional, hs, .refl s'⟩
  | .sequence (block :: rest) =>
      obtain ⟨first, s₁, hfirst, h⟩ := (blockLoop_sequence resolve).yields_first.mp h
      obtain ⟨r, cs, hdelivers⟩ := delivers_term hresolve block s first s₁ hs hfirst
      exact delivers_sequence (fun t ht => delivers_term hresolve t) (List.cons_ne_nil block [])
        ⟨.sequenceOne hdelivers.expands, hdelivers.made, hdelivers.within, hdelivers.sound,
          hdelivers.loses⟩ h
  | .choice [] => exact absurd h not_yields_emptyChoice
  | .choice (block :: rest) =>
      obtain ⟨first, s₁, hfirst, h⟩ := (blockLoop_choice resolve).yields_first.mp h
      obtain ⟨r, cs, hdelivers⟩ := delivers_term hresolve block s first s₁ hs hfirst
      exact delivers_choice (fun t ht => delivers_term hresolve t) (List.cons_ne_nil block [])
        ⟨.choiceOne hdelivers.expands, hdelivers.made, hdelivers.within, hdelivers.sound,
          hdelivers.loses⟩ h
  | .optional block =>
      obtain ⟨b, hb, rfl⟩ := yields_optional.mp h
      obtain ⟨r, cs, hdelivers⟩ := delivers_term hresolve block s b s' hs hb
      exact ⟨_, cs, .optional hdelivers.expands, .optional hdelivers.made,
        hdelivers.within.optional, hdelivers.sound, hdelivers.loses⟩
  | .kleene block =>
      obtain ⟨b, s₁, hb, rfl, rfl⟩ := yields_kleene.mp h
      obtain ⟨r, cs, hdelivers⟩ := delivers_term hresolve block s b s₁ hs hb
      -- a repetition reports no collision of its own
      refine ⟨_, _, delivers_build hdelivers.sound hdelivers.loses (.kleene hdelivers.expands) ?_
        (Nat.le_succ _) (within_plus hdelivers.within).optional⟩
      rw [kleene_eq, List.append_nil]
      exact .kleene s₁.drawn hdelivers.made hdelivers.within
  | .plus block =>
      obtain ⟨b, s₁, hb, rfl, rfl⟩ := yields_plus.mp h
      obtain ⟨r, cs, hdelivers⟩ := delivers_term hresolve block s b s₁ hs hb
      refine ⟨_, _, delivers_build hdelivers.sound hdelivers.loses (.plus hdelivers.expands) ?_
        (Nat.le_succ _) (within_plus hdelivers.within)⟩
      rw [plus_eq, List.append_nil]
      exact .plus s₁.drawn hdelivers.made hdelivers.within
  | .ref name =>
      rw [term] at h
      exact hresolve name s a s' hs h
termination_by t
decreasing_by
  all_goals first
    | (have hsize := List.sizeOf_lt_of_mem ht; simp; omega)
    | (simp; omega)
    | simp

end

/-! ## References -/

/-- A table that is kept can be **copied** for a reference. A copy is made for the same
expression, with the same losses. -/
theorem delivers_kept {name : String} {kept : Automaton} (hs : s.Sound defs)
    (hkept : s.finished.get? name = some kept) :
    ∃ r cs, Delivers defs (.ref name) s (copy s.drawn kept).automaton
      (afterBuild s (copy s.drawn kept)) r cs := by
  obtain ⟨r, cs, hr, hmade, -, hcs⟩ := hs name kept hkept
  have hloses := loses_afterBuild s (copy s.drawn kept) (le_drawn_copy kept s.drawn)
  refine ⟨r, cs, hr, .copy s.drawn hmade, within_copy kept s.drawn, hs.mono rfl hloses,
    hloses.drawn_le, hloses.keeps, ?_, ?_⟩
  · -- what was lost when the definition was compiled is on record already
    exact fun c hc => (hcs c hc).mono hloses.keeps
  · intro w hw
    apply (hloses.only w hw).imp_right
    intro hcopy
    exact absurd hcopy (by simp [copy])

/-- Keeping a table that was made for its definition leaves a session **sound**. The
expression that it was made for is the one that the reference expands to. -/
theorem Session.sound_insert {name : String} {path : List String}
    (h : Delivers defs (.ref name) s a s' r cs) :
    Session.Sound defs { s' with inProgress := path, finished := s'.finished.insert name a } := by
  intro name' a' ha'
  rcases OrderedTable.eq_or_of_get?_insert ha' with ⟨rfl, rfl⟩ | hold
  · exact ⟨r, cs, h.expands, h.made, h.within, h.loses.records⟩
  · exact h.sound name' a' hold

/-- A reference goes as the term of its **definition** does, with the table kept
afterwards. What its term has lost is lost by the reference. -/
theorem Delivers.define {name : String} {path path' : List String} {body normal : Pattern}
    (h : Delivers defs t { s with inProgress := path } a s' r cs)
    (hdef : defs.get? name = some body) (hnormal : body.normalize = .ok normal)
    (hterm : Term.ofPattern? normal = some t) : Delivers defs (.ref name) s a
      { s' with inProgress := path', finished := s'.finished.insert name a } r cs := by
  have hloses : s.Loses s' cs :=
    ⟨h.loses.drawn_le, h.loses.keeps, h.loses.records, h.loses.only⟩
  have href : Delivers defs (.ref name) s a s' r cs :=
    ⟨.ref hdef hnormal hterm h.expands, h.made, h.within, h.sound, hloses⟩
  exact ⟨href.expands, href.made, href.within, Session.sound_insert href,
    hloses.drawn_le, hloses.keeps, hloses.records, hloses.only⟩

/-- A reference **delivers** a table for its definition. The induction is that of
`resolve`: on the definitions that are not being compiled. -/
theorem delivers_resolve (book : Rulebook) (path : List String) (name : String) :
    AlwaysDelivers book.definitions (resolve book path name) (.ref name) := by
  induction hn : unseen book.definitions.keys path using Nat.strong_induction_on
    generalizing path name with
  | _ n ih =>
    intro s a s' hs h
    cases hfinished : s.finished.get? name with
    | some kept =>
        obtain ⟨rfl, rfl⟩ := (yields_resolve_of_kept hfinished).mp h
        exact delivers_kept hs hfinished
    | none =>
        obtain ⟨hpath, body, t, s₁, hbody, hcontent, hterm, rfl⟩ :=
          (yields_resolve_of_new hfinished).mp h
        obtain ⟨normal, hnormal, hreads⟩ := Content.ofPattern_eq_term hcontent
        -- the definition joins those being compiled, so fewer are left for the references in it
        have hless : unseen book.definitions.keys (path ++ [name]) < n := by
          rw [← hn]
          exact unseen_append_lt hbody hpath
        have hresolve : ∀ other,
            AlwaysDelivers book.definitions (resolve book (path ++ [name]) other) (.ref other) :=
          fun other => ih _ hless (path ++ [name]) other rfl
        obtain ⟨r, cs, hdelivers⟩ :=
          delivers_term hresolve t { s with inProgress := path ++ [name] } a s₁ hs hterm
        exact ⟨r, cs, hdelivers.define hbody hnormal hreads⟩

end TreeGrammar
