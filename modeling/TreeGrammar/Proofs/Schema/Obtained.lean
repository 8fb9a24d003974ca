/-
Schemas as the program obtains them.

A schema is compiled from a grammar or read back from an encoding. Either way it is
**proper**: each rule stands under its own tag, names no attribute twice and has tables
that keep the rules and have no empty rows, ties go to the leftmost block, and the start
is a declared tag. Compiling has this from how tables are made, reading from what it
checks.
-/
import TreeGrammar.Proofs.Automaton.Tidy
import TreeGrammar.Proofs.Compile.Pattern
import TreeGrammar.Proofs.Schema.Codes
import TreeGrammar.Proofs.Schema.Reading
import TreeGrammar.Schema.Build

set_option autoImplicit false

namespace TreeGrammar

/-! ## What is obtained -/

/-- No attribute is named twice, every table keeps the rules and has no empty row, and
**the leftmost block wins a tie**. -/
structure ElementRule.Proper (r : ElementRule) : Prop where
  attributes : r.attributes.Nodup
  wellFormed : ∀ a ∈ r.content.automata, a.WellFormed
  tidy : ∀ a ∈ r.content.automata, a.Tidy
  tieBreak : r.content.withTieBreak .firstMatch = r.content

/-- Each rule is proper and stands under its own tag, and the start is declared. -/
structure Schema.Proper (s : Schema) : Prop where
  tag : ∀ p ∈ s.elements.entries, p.2.tag = p.1
  rule : ∀ p ∈ s.elements.entries, p.2.Proper
  start : ∀ tag, s.start = some tag → tag ∈ s.tags

/-- The schema is **obtained** by compiling a grammar or by reading an encoding. -/
inductive Schema.Obtained : Schema → Prop
  | compiled {limits : Limits} {g : Grammar} {s : Schema} (h : Schema.ofGrammar limits g = .ok s) :
      Schema.Obtained s
  | decoded {v : Json} {s : Schema} (h : Compact.decode v = .ok s) : Schema.Obtained s

/-! ## Compiled schemas -/

/-- An expression has the tables of the compiled content that it is made of. -/
theorem Expression.automata_ofCompiled (c : Compiled) :
    (Expression.ofCompiled c).automata = c.automata := by
  cases c with
  | single a => rfl
  | interleave blocks => rfl

namespace Schema

open Compiling

variable {book : Rulebook} {kinds : OrderedTable String ElementKind} {s s' : Session}

/-- A declaration compiles **as its content does**, with the place named first, if the
names in it are names. -/
theorem yields_compileRule {tag : String} {d : Declaration} {r : ElementRule} :
    (compileRule book kinds tag d).Yields s r s' ↔
      Name.checkElement tag = .ok () ∧ d.attributes.forM Name.checkAttribute = .ok () ∧
      ∃ c, (pattern book d.content).Yields { s with location := some tag } c s' ∧
        ((Expression.ofCompiled c).allowedTokens.filterMap Token.elementName?).forM
          Name.checkElement = .ok () ∧
        r = {
          tag
          kind := (kinds.get? tag).getD (ElementKind.infer (Expression.ofCompiled c))
          attributes := d.attributes.eraseDups
          content := Expression.ofCompiled c } := by
  rw [compileRule, yields_bind]
  constructor
  · rintro ⟨⟨⟩, s₁, h₁, h⟩
    rw [yields_bind] at h
    obtain ⟨⟨⟩, s₂, h₂, h⟩ := h
    rw [yields_bind] at h
    obtain ⟨_, s₃, h₃, h⟩ := h
    rw [yields_bind] at h
    obtain ⟨c, s₄, hc, h⟩ := h
    rw [yields_bind] at h
    obtain ⟨⟨⟩, s₅, h₅, h⟩ := h
    -- the checks before and after leave the session alone
    rw [yields_ofExcept] at h₁ h₂ h₅
    rw [yields_modify, h₂.2, h₁.2] at h₃
    rw [yields_pure] at h
    rw [h.2, h₅.2]
    rw [h₃] at hc
    exact ⟨h₁.1, h₂.1, c, hc, h₅.1, h.1⟩
  · rintro ⟨h₁, h₂, c, hc, h₅, hr⟩
    refine ⟨⟨⟩, s, yields_ofExcept.mpr ⟨h₁, rfl⟩, yields_bind.mpr ?_⟩
    refine ⟨⟨⟩, s, yields_ofExcept.mpr ⟨h₂, rfl⟩, yields_bind.mpr ?_⟩
    refine ⟨⟨⟩, _, yields_modify.mpr rfl, yields_bind.mpr ⟨c, s', hc, yields_bind.mpr ?_⟩⟩
    exact ⟨⟨⟩, s', yields_ofExcept.mpr ⟨h₅, rfl⟩, yields_pure.mpr ⟨hr, rfl⟩⟩

/-- The rule of a declaration has its tag, its attributes once each, and **what its
content compiles to**. The kind does not matter here. -/
theorem exists_of_yields_compileRule {tag : String} {d : Declaration} {r : ElementRule}
    (h : (compileRule book kinds tag d).Yields s r s') :
    ∃ c kind, (pattern book d.content).Yields { s with location := some tag } c s' ∧
      r = { tag, kind, attributes := d.attributes.eraseDups, content :=
        Expression.ofCompiled c } := by
  obtain ⟨-, -, c, hc, -, hr⟩ := yields_compileRule.mp h
  exact ⟨c, _, hc, hr⟩

theorem yields_compileRules_nil {rs : List (String × ElementRule)} :
    (compileRules book kinds []).Yields s rs s' ↔ rs = [] ∧ s' = s := by
  rw [compileRules, yields_pure]

/-- Rules are compiled one after the other, each in the session that the
last one left. -/
theorem yields_compileRules_cons {p : String × Declaration} {rest : List (String × Declaration)}
    {rs : List (String × ElementRule)} : (compileRules book kinds (p :: rest)).Yields s rs s' ↔
      ∃ r s₁ more, (compileRule book kinds p.1 p.2).Yields s r s₁ ∧
        (compileRules book kinds rest).Yields s₁ more s' ∧
        rs = (p.1, r) :: more := by
  rw [compileRules, yields_bind]
  constructor
  · rintro ⟨r, s₁, hr, h⟩
    rw [yields_bind] at h
    obtain ⟨more, s₂, hmore, h⟩ := h
    rw [yields_pure] at h
    obtain ⟨rfl, rfl⟩ := h
    exact ⟨r, s₁, more, hr, hmore, rfl⟩
  · rintro ⟨r, s₁, more, hr, hmore, rfl⟩
    exact ⟨r, s₁, hr, yields_bind.mpr ⟨more, s', hmore, yields_pure.mpr ⟨rfl, rfl⟩⟩⟩

theorem yields_compileRules_append {front back : List (String × Declaration)}
    {rs : List (String × ElementRule)} : (compileRules book kinds (front ++ back)).Yields s rs s' ↔
      ∃ rs₁ s₁ rs₂, (compileRules book kinds front).Yields s rs₁ s₁ ∧
        (compileRules book kinds back).Yields s₁ rs₂ s' ∧
        rs = rs₁ ++ rs₂ := by
  induction front generalizing s rs with
  | nil =>
      simp only [yields_compileRules_nil]
      constructor
      · exact fun h => ⟨[], s, rs, ⟨rfl, rfl⟩, h, rfl⟩
      · rintro ⟨_, _, rs₂, ⟨rfl, rfl⟩, h, rfl⟩
        exact h
  | cons p front ih =>
      simp only [List.cons_append, yields_compileRules_cons, ih]
      constructor
      · rintro ⟨r, s₁, _, hr, ⟨rs₁, s₂, rs₂, h₁, h₂, rfl⟩, rfl⟩
        exact ⟨(p.1, r) :: rs₁, s₂, rs₂, ⟨r, s₁, rs₁, hr, h₁, rfl⟩, h₂, rfl⟩
      · rintro ⟨_, s₂, rs₂, ⟨r, s₁, rs₁, hr, h₁, rfl⟩, h₂, rfl⟩
        exact ⟨r, s₁, rs₁ ++ rs₂, hr, ⟨rs₁, s₂, rs₂, h₁, h₂, rfl⟩, rfl⟩

/-- A rule that is compiled is proper, and the session stays sound. Its tables were made
by operators, which keep the rules. -/
theorem proper_of_compileRule {tag : String} {d : Declaration} {r : ElementRule}
    (hs : s.Sound book.definitions) (h : (compileRule book kinds tag d).Yields s r s') :
    s'.Sound book.definitions ∧ r.tag = tag ∧ r.Proper := by
  obtain ⟨c, kind, hc, rfl⟩ := exists_of_yields_compileRule h
  -- naming the place does not touch the tables of a session
  obtain ⟨hs', hmade⟩ := sound_pattern (s := { s with location := some tag }) hs hc
  refine ⟨hs', rfl, nodup_eraseDups d.attributes, ?_, ?_, ?_⟩
  · intro a ha
    obtain ⟨_, _, hmade⟩ := hmade a (Expression.automata_ofCompiled c ▸ ha)
    exact hmade.wellFormed
  · intro a ha
    obtain ⟨_, _, hmade⟩ := hmade a (Expression.automata_ofCompiled c ▸ ha)
    exact hmade.tidy
  · cases c with
    | single a => rfl
    | interleave blocks => rfl

/-- Rules that are compiled stand under the tags of their declarations, in order. By
induction on the declarations. -/
theorem proper_of_compileRules {ds : List (String × Declaration)} {rs : List (String × ElementRule)}
    (hs : s.Sound book.definitions) (h : (compileRules book kinds ds).Yields s rs s') :
    rs.map Prod.fst = ds.map Prod.fst ∧ ∀ p ∈ rs, p.2.tag = p.1 ∧ p.2.Proper := by
  induction ds generalizing rs s s' with
  | nil =>
      obtain ⟨rfl, -⟩ := yields_compileRules_nil.mp h
      exact ⟨rfl, fun p hp => absurd hp List.not_mem_nil⟩
  | cons p rest ih =>
      obtain ⟨r, s₁, more, hr, hmore, rfl⟩ := yields_compileRules_cons.mp h
      obtain ⟨hs₁, htag, hproper⟩ := proper_of_compileRule hs hr
      obtain ⟨hkeys, hrules⟩ := ih hs₁ hmore
      rw [List.map_cons, List.map_cons, hkeys, List.forall_mem_cons]
      exact ⟨rfl, ⟨htag, hproper⟩, hrules⟩

/-- The mentions are in order exactly when **every element that is mentioned** is
declared. What is mentioned are the start and the elements that a kind is given for. -/
theorem checkMentions_eq_ok_iff {g : Grammar} : checkMentions g = .ok () ↔
    (∀ tag, g.start = some tag → g.elements.contains tag = true) ∧
      ∀ tag ∈ g.kinds.keys, g.elements.contains tag = true := by
  have hkinds : (∀ tag ∈ g.kinds.keys, g.elements.contains tag = true) ↔
      (g.kinds.keys.find? fun tag => !g.elements.contains tag) = none := by simp
  rw [hkinds]
  unfold checkMentions
  generalize g.kinds.keys.find? (fun tag => !g.elements.contains tag) = undeclared
  cases g.start with
  | none =>
      cases undeclared with
      | none => exact ⟨fun _ => ⟨fun tag htag => absurd htag (by simp), rfl⟩, fun _ => rfl⟩
      | some tag => exact ⟨fun h => absurd h Pattern.throw_ne_ok, fun h => absurd h.2 (by simp)⟩
  | some name =>
      dsimp only
      cases hname : g.elements.contains name with
      | true =>
          rw [Bool.not_true, if_neg Bool.false_ne_true]
          cases undeclared with
          | none =>
              exact ⟨fun _ => ⟨fun tag htag => Option.some.inj htag ▸ hname, rfl⟩, fun _ => rfl⟩
          | some tag => exact ⟨fun h => absurd h Pattern.throw_ne_ok, fun h => absurd h.2 (by simp)⟩
      | false =>
          rw [Bool.not_false, if_pos rfl]
          refine ⟨fun h => ?_, fun h => absurd ((h.1 name rfl).symm.trans hname) (by simp)⟩
          obtain ⟨_, hthrow, -⟩ := Pattern.bind_eq_ok h
          exact absurd hthrow Pattern.throw_ne_ok

theorem mem_keys_of_checkMentions {g : Grammar} (h : checkMentions g = .ok ()) {tag : String}
    (hstart : g.start = some tag) : tag ∈ g.elements.keys :=
  (OrderedTable.mem_keys_iff _ tag).mpr
    (Option.isSome_iff_exists.mp ((checkMentions_eq_ok_iff.mp h).1 tag hstart))

/-- A schema that is **compiled** is proper. Rules stand under the tags of declarations,
and the start is declared. -/
theorem proper_of_ofGrammar {limits : Limits} {g : Grammar} {s : Schema}
    (h : ofGrammar limits g = .ok s) : s.Proper := by
  rw [ofGrammar] at h
  obtain ⟨-, -, h⟩ := Pattern.bind_eq_ok h
  obtain ⟨⟨⟩, hmentions, h⟩ := Pattern.bind_eq_ok h
  generalize hrun : (compileRules { definitions := g.definitions, limits } g.kinds
    g.elements.entries).run.run {} = result at h
  obtain ⟨result, session⟩ := result
  obtain ⟨rs, rfl, h⟩ := Pattern.bind_eq_ok h
  obtain ⟨hkeys, hrules⟩ := proper_of_compileRules (sound_new g.definitions) hrun
  rw [← Except.ok.inj h]
  -- no tag is declared twice, so no rule replaces another
  have hnodup : (rs.map Prod.fst).Nodup := by
    rw [hkeys]
    exact g.elements.keys_nodup
  have hentries : (OrderedTable.ofList rs).entries = rs := OrderedTable.entries_ofList hnodup
  refine ⟨?_, ?_, ?_⟩
  · show ∀ p ∈ (OrderedTable.ofList rs).entries, p.2.tag = p.1
    rw [hentries]
    exact fun p hp => (hrules p hp).1
  · show ∀ p ∈ (OrderedTable.ofList rs).entries, p.2.Proper
    rw [hentries]
    exact fun p hp => (hrules p hp).2
  · intro tag hstart
    show tag ∈ (OrderedTable.ofList rs).entries.map Prod.fst
    rw [hentries, hkeys]
    exact mem_keys_of_checkMentions hmentions hstart

end Schema

/-! ## Schemas read back -/

namespace Compact

variable {tags attributes : List String} {v : Json}

/-- Both ends of an edge that is read have numbers of **32 bits**, if they
are numbered. -/
theorem le_of_decodeRow {source : State} {members : List (String × Json)} {es : List Edge}
    (h : decodeRow tags source members = .ok es) (hsource : ∀ k, source = .id k → k ≤ maxState) :
    ∀ e ∈ es, (∀ k, e.source = .id k → k ≤ maxState) ∧ ∀ k, e.target = .id k → k ≤ maxState := by
  intro e he
  obtain ⟨q, -, -, htarget, hfrom⟩ := exists_left_of_forall₂ (forall₂_of_decodeRow h) he
  refine ⟨fun k hk => hsource k (hfrom.symm.trans hk), fun k hk => ?_⟩
  rw [hk] at htarget
  exact le_of_decodeTarget htarget

theorem le_of_decodeRows {members : List (String × Json)} {es : List Edge}
    (h : decodeRows tags members = .ok es) :
    ∀ e ∈ es, (∀ k, e.source = .id k → k ≤ maxState) ∧ ∀ k, e.target = .id k → k ≤ maxState := by
  obtain ⟨blocks, rfl, hblocks⟩ := exists_of_decodeRows h
  intro e he
  obtain ⟨block, hblock, he⟩ := List.mem_flatten.mp he
  obtain ⟨p, -, source, row, hsource, -, hrow⟩ := exists_left_of_forall₂ hblocks hblock
  refine le_of_decodeRow hrow ?_ e he
  rintro k rfl
  exact le_of_decodeState hsource

/-- Reading a table checks the rules and the size of the numbers, and leaves no row
empty. A table that breaks a rule is refused. -/
theorem wellFormed_of_decodeAutomaton {a : Automaton} (h : decodeAutomaton tags v = .ok a) :
    a.WellFormed ∧ a.Tidy ∧ a.Within maxState := by
  obtain ⟨rows, es, -, hes, rfl, hproblems⟩ := exists_of_decodeAutomaton h
  exact ⟨(Automaton.problems_eq_nil_iff _).mp hproblems, Automaton.tidy_ofEdges es,
    .ofEdges (le_of_decodeRows hes)⟩

/-- Tables that are read keep the rules, or they would have been refused; and their ties
go to the leftmost block, as those of a compiled content do. -/
theorem proper_of_decodeContent {e : Expression} (h : decodeContent tags v = .ok e) :
    (∀ a ∈ e.automata, a.WellFormed ∧ a.Tidy ∧ a.Within maxState) ∧
    e.withTieBreak .firstMatch = e := by
  obtain ⟨htables, htie⟩ := forall₂_of_decodeContent h
  refine ⟨fun a ha => ?_, htie⟩
  obtain ⟨table, -, htable⟩ := exists_left_of_forall₂ htables ha
  exact wellFormed_of_decodeAutomaton htable

/-- A rule that has been **read under a tag**. -/
structure ReadRule (tag : String) (r : ElementRule) : Prop where
  tag_eq : r.tag = tag
  proper : r.Proper
  within : ∀ a ∈ r.content.automata, a.Within maxState

theorem readRule_of_decodeRule {tag : String} {r : ElementRule}
    (h : decodeRule tags attributes tag v = .ok r) : ReadRule tag r := by
  obtain ⟨code, indices, content, kind, names, e, -, -, -, hcontent, rfl⟩ := exists_of_decodeRule h
  obtain ⟨hautomata, htie⟩ := proper_of_decodeContent hcontent
  have hproper : ElementRule.Proper { tag, kind, attributes := names.eraseDups, content := e } :=
    ⟨nodup_eraseDups names, fun a ha => (hautomata a ha).1, fun a ha => (hautomata a ha).2.1, htie⟩
  exact ⟨rfl, hproper, fun a ha => (hautomata a ha).2.2⟩

/-- The start that is read is one of the declared tags. -/
theorem mem_of_decodeStart {declared : List String} {start : Option Json} {tag : String}
    (h : decodeStart declared start = .ok (some tag)) : tag ∈ declared := by
  rcases cases_of_decodeStart h with ⟨hnone, -⟩ | ⟨v, name, -, htag, hname⟩
  · cases hnone
  · cases htag
    obtain ⟨i, -, hi⟩ := exists_of_entryAt hname
    exact List.mem_of_getElem? hi

/-- A schema that is **read** is proper, and the numbers of its states have 32 bits.
Everything that being proper asks is checked while reading. -/
theorem proper_of_decode {s : Schema} (h : decode v = .ok s) :
    s.Proper ∧ ∀ r ∈ s.rules, ∀ a ∈ r.content.automata, a.Within maxState := by
  obtain ⟨x, rs, -, hmakes⟩ := decode_eq_ok_iff.mp h
  have hrules : ∀ p ∈ s.elements.entries, ReadRule p.1 p.2 := by
    intro p hp
    rw [hmakes.elements] at hp
    obtain ⟨entry, -, htag, hrule⟩ :=
      exists_left_of_forall₂ (forall₂_of_decodeRules hmakes.rules)
        (OrderedTable.mem_of_mem_entries_ofList hp)
    rw [htag]
    exact readRule_of_decodeRule hrule
  refine ⟨⟨fun p hp => (hrules p hp).tag_eq, fun p hp => (hrules p hp).proper, fun tag htag => ?_⟩,
    fun r hr => ?_⟩
  · have hstart := hmakes.start
    rw [htag] at hstart
    rw [hmakes.mem_tags_iff]
    exact mem_of_decodeStart hstart
  · obtain ⟨p, hp, rfl⟩ := List.mem_map.mp hr
    exact (hrules p hp).within

end Compact

/-- Every schema that is obtained is **proper**. There are two ways to get one, and both
end in the checks. -/
theorem Schema.Obtained.proper {s : Schema} (h : s.Obtained) : s.Proper := by
  cases h with
  | compiled h => exact Schema.proper_of_ofGrammar h
  | decoded h => exact (Compact.proper_of_decode h).1

end TreeGrammar
