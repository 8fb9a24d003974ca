/-
The order of declarations.

All elements of a grammar are compiled in one session, so the first that needs a
definition has it compiled and the others have it copied, and every number that is drawn
depends on what came before. What a grammar compiles to does not depend on it: a
declaration compiles in one ready session exactly when it does in every other, and to a
rule that differs in the names of states alone. So two grammars that differ in the order
of their entries both compile or both fail, and there is one renaming for all the tables
of the one schema that makes those of the other (`ofGrammar_of_reordered`).
-/
import Mathlib
import TreeGrammar.Proofs.Compile.Rerun
import TreeGrammar.Proofs.Compile.Rulebook
import TreeGrammar.Proofs.Schema.Obtained
import TreeGrammar.Schema.Build

set_option autoImplicit false

namespace TreeGrammar

/-! ## Entries in another order -/

namespace OrderedTable

variable {κ ν : Type} [DecidableEq κ] {t t' : OrderedTable κ ν}

/-- What is read under a key does not depend on the **order of the entries**. No key
comes twice, so there is no first entry to prefer. -/
theorem get?_eq_of_perm (h : t.entries.Perm t'.entries) (k : κ) : t'.get? k = t.get? k := by
  ext v
  rw [← mem_entries_iff, ← mem_entries_iff, h.mem_iff]

theorem contains_eq_of_perm (h : t.entries.Perm t'.entries) (k : κ) :
    t'.contains k = t.contains k := by
  rw [contains, contains, get?_eq_of_perm h]

end OrderedTable

/-- The grammars start with the same element and have **the same entries**, in
whatever order. -/
structure Grammar.Reordered (g g' : Grammar) : Prop where
  start_eq : g'.start = g.start
  elements : g.elements.entries.Perm g'.elements.entries
  definitions : g.definitions.entries.Perm g'.definitions.entries
  kinds : g.kinds.entries.Perm g'.kinds.entries

theorem Grammar.Reordered.symm {g g' : Grammar} (h : g.Reordered g') : g'.Reordered g :=
  ⟨h.start_eq.symm, h.elements.symm, h.definitions.symm, h.kinds.symm⟩

/-! ## Rules -/

namespace ElementRule

/-- The rule with the states of its tables renamed. -/
def rename (f : State → State) (r : ElementRule) : ElementRule :=
  { r with content := r.content.rename f }

/-- The rules are **the same but for the names of states**. -/
structure Recodes (r r' : ElementRule) : Prop where
  tag_eq : r'.tag = r.tag
  kind_eq : r'.kind = r.kind
  attributes_eq : r'.attributes = r.attributes
  content : r.content.Recodes r'.content

variable {r r' : ElementRule} {f g : State → State} {n m n' m' : Nat}

theorem rename_congr (h : ∀ s ∈ r.content.states, f s = g s) : r.rename f = r.rename g := by
  rw [rename, rename, Expression.rename_congr h]

theorem Recodes.exists_rename (h : r.Recodes r')
    (hr : Automaton.NumberedBetween n m r.content.automata)
    (hr' : Automaton.NumberedBetween n' m' r'.content.automata) :
    ∃ f : Equiv.Perm State, Recoding f ∧ r' = r.rename f := by
  obtain ⟨f, hf, hcontent⟩ := h.content.exists_rename hr hr'
  refine ⟨f, hf, ?_⟩
  obtain ⟨tag, kind, attributes, content⟩ := r'
  obtain ⟨rfl, rfl, rfl, -⟩ := h
  exact congrArg (ElementRule.mk r.tag r.kind r.attributes) hcontent

end ElementRule

namespace Schema

open Compiling Automaton

variable {book book' : Rulebook} {kinds kinds' : OrderedTable String ElementKind}
  {s s' : Session} {tag : String} {d : Declaration} {r r' : ElementRule}

theorem compileRule_congr (h : book.Agrees book') (hkinds : ∀ tag, kinds'.get? tag = kinds.get? tag)
    (tag : String) (d : Declaration) :
    compileRule book' kinds' tag d = compileRule book kinds tag d := by
  rw [compileRule, compileRule, pattern_congr h, hkinds]

/-- Declarations are compiled alike with rulebooks that agree, whatever order their
entries are in. Rules are compiled for the declarations in the order given; only their
references are looked up by name. -/
theorem compileRules_congr (h : book.Agrees book')
    (hkinds : ∀ tag, kinds'.get? tag = kinds.get? tag) (ds : List (String × Declaration)) :
    compileRules book' kinds' ds = compileRules book kinds ds := by
  induction ds with
  | nil => rw [compileRules, compileRules]
  | cons p rest ih => rw [compileRules, compileRules, compileRule_congr h hkinds, ih]

/-- The names of elements are checked one by one, so **their order does not matter**. -/
theorem forM_checkElement_eq_ok_iff (names : List String) :
    names.forM Name.checkElement = .ok () ↔ ∀ name ∈ names, Name.checkElement name = .ok () := by
  induction names with
  | nil => exact ⟨fun _ _ h => absurd h List.not_mem_nil, fun _ => rfl⟩
  | cons name names ih =>
      rw [List.forall_mem_cons, ← ih, List.forM]
      constructor
      · intro h
        obtain ⟨⟨⟩, hname, hrest⟩ := Pattern.bind_eq_ok h
        exact ⟨hname, hrest⟩
      · rintro ⟨hname, hrest⟩
        rw [hname]
        exact hrest

/-- A declaration compiles **in every ready session** if it does in one, to rules that
are the same but for the names of states. -/
theorem reruns_compileRule (book : Rulebook) (kinds : OrderedTable String ElementKind)
    (tag : String) (d : Declaration) :
    Reruns book (compileRule book kinds tag d)
      (compileRule book kinds tag d) ElementRule.Recodes := by
  have hcheck : ∀ e : Except Failure Unit, Reruns book (Compiling.ofExcept e) (Compiling.ofExcept e)
      fun _ _ => True :=
    fun e => reruns_ofExcept fun x hx => ⟨x, hx, trivial⟩
  rw [compileRule]
  apply reruns_bind (hcheck _)
  intro _ _ _
  apply reruns_bind (hcheck _)
  intro _ _ _
  apply reruns_bind (reruns_locate (some tag))
  intro _ _ _
  apply reruns_bind (reruns_pattern book d.content)
  intro c c' hc
  have halike := Expression.Recodes.alike hc
  apply reruns_bind (R := fun _ _ => True)
  · refine reruns_ofExcept fun x hx => ⟨x, ?_, trivial⟩
    rw [forM_checkElement_eq_ok_iff] at hx ⊢
    intro name hname
    obtain ⟨x, hx', hname⟩ := List.mem_filterMap.mp hname
    exact hx name (List.mem_filterMap.mpr ⟨x, (halike.mem_allowedTokens_iff x).mp hx', hname⟩)
  · intro _ _ _
    exact reruns_pure ⟨rfl, by rw [ElementKind.infer_eq halike], rfl, hc⟩

/-- The tables of a rule are on numbers of its own. -/
theorem numbersItsTables_compileRule (book : Rulebook) (kinds : OrderedTable String ElementKind)
    (tag : String) (d : Declaration) :
    NumbersItsTables book (compileRule book kinds tag d) fun r => r.content.automata := by
  intro s r s' hs h
  obtain ⟨c, kind, hc, rfl⟩ := exists_of_yields_compileRule h
  obtain ⟨hs', hle, hnumbered⟩ :=
    numbersItsTables_pattern book d.content _ c s' (hs.located (some tag)) hc
  rw [← Expression.automata_ofCompiled] at hnumbered
  exact ⟨hs', hle, hnumbered⟩

/-! ## All rules -/

/-- All tables of some rules. -/
def tablesOf (rs : List (String × ElementRule)) : List Automaton :=
  rs.flatMap fun p => p.2.content.automata

/-- All rules have their tables on numbers of their own, those of one rule behind those
of the rule before. -/
theorem numbersItsTables_compileRules (book : Rulebook) (kinds : OrderedTable String ElementKind)
    (ds : List (String × Declaration)) :
    NumbersItsTables book (compileRules book kinds ds) tablesOf := by
  induction ds with
  | nil =>
      intro s rs s' hs h
      obtain ⟨rfl, rfl⟩ := yields_compileRules_nil.mp h
      exact ⟨hs, Nat.le_refl _, .nil _ _⟩
  | cons p rest ih =>
      intro s rs s' hs h
      obtain ⟨r, s₁, more, hr, hmore, rfl⟩ := yields_compileRules_cons.mp h
      obtain ⟨hs₁, hle, hnumbered⟩ := numbersItsTables_compileRule book kinds p.1 p.2 s r s₁ hs hr
      obtain ⟨hs', hle', hnumbered'⟩ := ih s₁ more s' hs₁ hmore
      exact ⟨hs', hle.trans hle', hnumbered.append hnumbered' hle hle'⟩

/-- In some ready session the declaration **compiles** to the rule. -/
def CompilesTo (book : Rulebook) (kinds : OrderedTable String ElementKind)
    (p : String × Declaration) (q : String × ElementRule) : Prop :=
  q.1 = p.1 ∧ ∃ s s', s.Ready book ∧ (compileRule book kinds p.1 p.2).Yields s q.2 s'

/-- Two rules of one declaration are the same but for the names of states. They are
compiled from the same content in sessions that are both ready for it. -/
theorem CompilesTo.recodes {p : String × Declaration} {q q' : String × ElementRule}
    (h : CompilesTo book kinds p q) (h' : CompilesTo book kinds p q') : q.2.Recodes q'.2 := by
  obtain ⟨-, s, s', hs, hq⟩ := h
  obtain ⟨-, u, u', hu, hq'⟩ := h'
  obtain ⟨r, u₁, hr, -, -, hrecodes⟩ := reruns_compileRule book kinds p.1 p.2 s q.2 s' u hs hq hu
  -- from one session a step yields one result
  have heq := hr.symm.trans hq'
  rw [Prod.mk.injEq, Except.ok.injEq] at heq
  exact heq.1 ▸ hrecodes

/-- The rules are those of the declarations, one by one. By induction on the
declarations, each compiled in a session that stays ready. -/
theorem compilesTo_of_yields {ds : List (String × Declaration)} {rs : List (String × ElementRule)}
    (hs : s.Ready book) (h : (compileRules book kinds ds).Yields s rs s') :
    List.Forall₂ (CompilesTo book kinds) ds rs := by
  induction ds generalizing s rs s' with
  | nil =>
      obtain ⟨rfl, rfl⟩ := yields_compileRules_nil.mp h
      exact .nil
  | cons p rest ih =>
      obtain ⟨r, s₁, more, hr, hmore, rfl⟩ := yields_compileRules_cons.mp h
      obtain ⟨hs₁, -, -⟩ := numbersItsTables_compileRule book kinds p.1 p.2 s r s₁ hs hr
      exact .cons ⟨rfl, s, s₁, hs, hr⟩ (ih hs₁ hmore)

/-- Declarations that compile, each in some session, compile **one after the other**. A
declaration compiles in every ready session if it compiles in one. -/
theorem exists_yields_compileRules {ds : List (String × Declaration)}
    (h : ∀ p ∈ ds, ∃ q, CompilesTo book kinds p q) (hs : s.Ready book) :
    ∃ rs s', (compileRules book kinds ds).Yields s rs s' := by
  induction ds generalizing s with
  | nil => exact ⟨[], s, yields_compileRules_nil.mpr ⟨rfl, rfl⟩⟩
  | cons p rest ih =>
      obtain ⟨q, -, u, u', hu, hq⟩ := h p List.mem_cons_self
      obtain ⟨r, s₁, hr, -, hs₁, -⟩ := reruns_compileRule book kinds p.1 p.2 u q.2 u' s hu hq hs
      obtain ⟨rs, s', hrs⟩ := ih (fun p' hp' => h p' (List.mem_cons_of_mem p hp')) hs₁
      exact ⟨(p.1, r) :: rs, s', yields_compileRules_cons.mpr ⟨r, s₁, rs, hr, hrs, rfl⟩⟩

/-! ## Schemas -/

variable {limits : Limits} {g g' : Grammar} {schema schema' : Schema}

/-- The names that a grammar mentions are checked against its elements, whose order does
not matter. This check is made before any compiling. -/
theorem checkMentions_of_reordered (h : g.Reordered g') (hg : checkMentions g = .ok ()) :
    checkMentions g' = .ok () := by
  rw [checkMentions_eq_ok_iff] at hg ⊢
  obtain ⟨hstart, hkinds⟩ := hg
  simp only [OrderedTable.contains_eq_of_perm h.elements, h.start_eq]
  exact ⟨hstart, fun tag htag => hkinds tag ((h.kinds.map Prod.fst).mem_iff.mpr htag)⟩

/-- The rulebook that the elements of a grammar are compiled with. -/
def bookOf (limits : Limits) (g : Grammar) : Rulebook := { definitions := g.definitions, limits }

theorem agrees_of_reordered (h : g.Reordered g') (limits : Limits) :
    (bookOf limits g).Agrees (bookOf limits g') :=
  ⟨rfl, OrderedTable.get?_eq_of_perm h.definitions⟩

/-- **A schema comes of one run**: its rules are what the declarations compile to, in
order, from a new session. -/
theorem yields_of_ofGrammar (h : ofGrammar limits g = .ok schema) :
    (limits.check .elements g.elements.size = .ok ()) ∧ checkMentions g = .ok () ∧
      ∃ s', (compileRules (bookOf limits g) g.kinds g.elements.entries).Yields {}
        schema.elements.entries s' := by
  rw [ofGrammar] at h
  obtain ⟨⟨⟩, hsize, h⟩ := Pattern.bind_eq_ok h
  obtain ⟨⟨⟩, hmentions, h⟩ := Pattern.bind_eq_ok h
  generalize hrun : (compileRules { definitions := g.definitions, limits } g.kinds
    g.elements.entries).run.run {} = result at h
  obtain ⟨result, s'⟩ := result
  obtain ⟨rs, rfl, h⟩ := Pattern.bind_eq_ok h
  -- no tag is declared twice, so the table holds the rules as they are listed
  have hkeys := (proper_of_compileRules (sound_new g.definitions) hrun).1
  have hentries : (OrderedTable.ofList rs).entries = rs :=
    OrderedTable.entries_ofList (hkeys ▸ g.elements.keys_nodup)
  rw [← Except.ok.inj h]
  refine ⟨mapError_eq_ok hsize, hmentions, s', ?_⟩
  show (compileRules (bookOf limits g) g.kinds g.elements.entries).Yields {}
    (OrderedTable.ofList rs).entries s'
  rw [hentries]
  exact hrun

/-- Conversely such a run makes the schema, once the checks that come before it
have succeeded. -/
theorem ofGrammar_of_yields {rs : List (String × ElementRule)}
    (hsize : limits.check .elements g.elements.size = .ok ()) (hmentions : checkMentions g = .ok ())
    (h : (compileRules (bookOf limits g) g.kinds g.elements.entries).Yields {} rs s') :
    ofGrammar limits g =
      .ok { elements := .ofList rs, start := g.start, warnings := s'.warnings, limits } := by
  have hrun : (compileRules { definitions := g.definitions, limits } g.kinds
    g.elements.entries).run.run {} = (.ok rs, s') := h
  rw [ofGrammar, hsize, hmentions, hrun]
  rfl

/-- Where the entries of one grammar compile, so do those of the other. Its declarations
compile one by one, so they do in any order. -/
theorem exists_ofGrammar_of_reordered (h : g.Reordered g') (hg : ofGrammar limits g = .ok schema) :
    ∃ schema', ofGrammar limits g' = .ok schema' := by
  obtain ⟨hsize, hmentions, s', hrun⟩ := yields_of_ofGrammar hg
  have hsize' : limits.check .elements g'.elements.size = .ok () := by
    rw [OrderedTable.size, ← h.elements.length_eq]
    exact hsize
  have hcompiles := compilesTo_of_yields (Session.ready_new _) hrun
  have hall : ∀ p ∈ g'.elements.entries, ∃ q, CompilesTo (bookOf limits g) g.kinds p q := by
    intro p hp
    obtain ⟨i, hi, rfl⟩ := List.getElem_of_mem (h.elements.mem_iff.mpr hp)
    exact ⟨_, hcompiles.get hi (hcompiles.length_eq ▸ hi)⟩
  obtain ⟨rs, s₁, hrs⟩ := exists_yields_compileRules hall (Session.ready_new _)
  rw [← compileRules_congr (agrees_of_reordered h limits)
    (OrderedTable.get?_eq_of_perm h.kinds)] at hrs
  exact ⟨_, ofGrammar_of_yields hsize' (checkMentions_of_reordered h hmentions) hrs⟩

/-! ## One renaming -/

/-- The states of the rule for a tag. -/
def statesOf (schema : Schema) (tag : String) : List State :=
  (schema.rule? tag).elim [] fun r => r.content.states

theorem statesOf_eq (h : schema.rule? tag = some r) : schema.statesOf tag = r.content.states := by
  rw [statesOf, h, Option.elim_some]

/-- The tables of one rule are side by side. The rule was compiled in one part
of the run. -/
theorem exists_numberedBetween_of_ofGrammar (hg : ofGrammar limits g = .ok schema)
    (hr : schema.rule? tag = some r) : ∃ n m, NumberedBetween n m r.content.automata := by
  obtain ⟨-, -, s', hrun⟩ := yields_of_ofGrammar hg
  obtain ⟨-, -, hnumbered⟩ := numbersItsTables_compileRules _ _ _ _ _ _ (Session.ready_new _) hrun
  exact ⟨_, _, hnumbered.of_mem_flatMap ((OrderedTable.mem_entries_iff _ _ _).mpr hr)⟩

/-- A schema declares the elements of its grammar, in their order. -/
theorem keys_of_ofGrammar (hg : ofGrammar limits g = .ok schema) :
    schema.elements.keys = g.elements.keys := by
  obtain ⟨-, -, s', hrun⟩ := yields_of_ofGrammar hg
  exact (proper_of_compileRules (sound_new g.definitions) hrun).1

/-- No two rules share a number. Each has been compiled on numbers that were drawn for
it alone. -/
theorem pairwise_apart_of_ofGrammar (hg : ofGrammar limits g = .ok schema) :
    g.elements.keys.Pairwise fun tag tag' => Apart (schema.statesOf tag)
      (schema.statesOf tag') := by
  obtain ⟨-, -, s', hrun⟩ := yields_of_ofGrammar hg
  obtain ⟨-, -, hnumbered⟩ := numbersItsTables_compileRules _ _ _ _ _ _ (Session.ready_new _) hrun
  rw [← keys_of_ofGrammar hg, OrderedTable.keys, List.pairwise_map]
  refine (List.pairwise_flatMap.mp hnumbered.disjoint).2.imp_of_mem ?_
  intro p q hp hq hpq k hk hk'
  rw [statesOf_eq ((OrderedTable.mem_entries_iff _ _ _).mp hp)] at hk
  rw [statesOf_eq ((OrderedTable.mem_entries_iff _ _ _).mp hq)] at hk'
  obtain ⟨a, ha, hka⟩ := List.mem_flatMap.mp hk
  obtain ⟨b, hb, hkb⟩ := List.mem_flatMap.mp hk'
  exact hpq a ha b hb k hka hkb

/-- Under each tag stands the rule that its declaration compiles to, or neither is
there. Looking up by tag no longer depends on the order. -/
theorem rel_get?_of_compilesTo {ds : OrderedTable String Declaration}
    {rs : OrderedTable String ElementRule}
    (h : List.Forall₂ (CompilesTo book kinds) ds.entries rs.entries) (tag : String) :
    Option.Rel (fun d r => CompilesTo book kinds (tag, d) (tag, r)) (ds.get? tag)
      (rs.get? tag) := by
  unfold OrderedTable.get?
  generalize ds.entries = ds, rs.entries = rs at h
  induction h with
  | nil => exact .none
  | @cons p q _ _ hpq _ ih =>
      obtain ⟨tag₀, d⟩ := p
      obtain ⟨tag₁, r⟩ := q
      obtain rfl : tag₁ = tag₀ := hpq.1
      by_cases htag : tag₁ = tag
      · subst htag
        rw [findPair, findPair, if_pos rfl, if_pos rfl]
        exact .some hpq
      · rw [findPair, findPair, if_neg htag, if_neg htag]
        exact ih

/-- A rule of the one schema is there in the other, **the same but for the names of
states**. Both rules are compiled from the one declaration of the tag. -/
theorem recodes_of_reordered (h : g.Reordered g') (hg : ofGrammar limits g = .ok schema)
    (hg' : ofGrammar limits g' = .ok schema') (tag : String) :
    Option.Rel ElementRule.Recodes (schema.rule? tag) (schema'.rule? tag) := by
  obtain ⟨-, -, s, hrun⟩ := yields_of_ofGrammar hg
  obtain ⟨-, -, s', hrun'⟩ := yields_of_ofGrammar hg'
  rw [compileRules_congr (agrees_of_reordered h limits)
    (OrderedTable.get?_eq_of_perm h.kinds)] at hrun'
  have hrel := rel_get?_of_compilesTo (compilesTo_of_yields (Session.ready_new _) hrun) tag
  have hrel' := rel_get?_of_compilesTo (compilesTo_of_yields (Session.ready_new _) hrun') tag
  rw [OrderedTable.get?_eq_of_perm h.elements] at hrel'
  unfold rule?
  generalize g.elements.get? tag = d, schema.elements.get? tag = r, schema'.elements.get? tag =
    r' at hrel hrel'
  cases hrel with
  | none =>
      cases hrel'
      exact .none
  | some hr =>
      cases hrel' with
      | some hr' => exact .some (hr.recodes hr')

/-- For each tag there is a renaming. It is put together from the renamings of the
tables of its content. -/
theorem exists_rename_of_reordered (h : g.Reordered g') (hg : ofGrammar limits g = .ok schema)
    (hg' : ofGrammar limits g' = .ok schema') (tag : String) :
    ∃ f : Equiv.Perm State, Recoding f ∧ schema'.rule? tag = (schema.rule? tag).map
      fun r => r.rename f := by
  have hrel := recodes_of_reordered h hg hg' tag
  generalize hr : schema.rule? tag = rule, hr' : schema'.rule? tag = rule' at hrel
  cases hrel with
  | none => exact ⟨Equiv.refl State, .refl, rfl⟩
  | some hrecodes =>
      obtain ⟨n, m, hnumbered⟩ := exists_numberedBetween_of_ofGrammar hg hr
      obtain ⟨n', m', hnumbered'⟩ := exists_numberedBetween_of_ofGrammar hg' hr'
      obtain ⟨f, hf, heq⟩ := hrecodes.exists_rename hnumbered hnumbered'
      exact ⟨f, hf, congrArg some heq⟩

/-- A renamed rule has renamed states. -/
theorem statesOf_rename {f : State → State} (hg : ofGrammar limits g = .ok schema)
    (hf : Recoding f) {tag : String}
    (heq : schema'.rule? tag = (schema.rule? tag).map fun r => r.rename f) :
    schema'.statesOf tag = (schema.statesOf tag).map f := by
  rw [statesOf, heq]
  cases hr : schema.rule? tag with
  | none => rw [statesOf, hr]; rfl
  | some r =>
      obtain ⟨_, _, hnumbered⟩ := exists_numberedBetween_of_ofGrammar hg hr
      rw [statesOf_eq hr]
      exact Expression.states_rename hnumbered.tidy hf

/-- The order of declarations **does not matter**: grammars with the same entries both
compile or both do not, and if they do, one renaming of states, which merges no two and
leaves the shared ones alone, takes the rules of the one to the rules of the other,
kinds and attributes included. -/
theorem ofGrammar_of_reordered (h : g.Reordered g') (limits : Limits) :
    ((∃ schema, ofGrammar limits g = .ok schema) ↔ ∃ schema', ofGrammar limits g' = .ok schema') ∧
      ∀ schema schema', ofGrammar limits g = .ok schema → ofGrammar limits g' = .ok schema' →
        ∃ f : State → State, Function.Injective f ∧ f .start = .start ∧ f .fin = .fin ∧
          ∀ tag, schema'.rule? tag = (schema.rule? tag).map fun r => r.rename f := by
  constructor
  · constructor
    · rintro ⟨schema, hg⟩
      exact exists_ofGrammar_of_reordered h hg
    · rintro ⟨schema', hg'⟩
      exact exists_ofGrammar_of_reordered h.symm hg'
  · intro schema schema' hg hg'
    -- each rule has its renaming, and no two rules have a number in common, neither here
    -- nor there
    have hrec := fun tag (_ : tag ∈ g.elements.keys) => exists_rename_of_reordered h hg hg' tag
    have hapart := pairwise_apart_of_ofGrammar hg
    have hapart' : g.elements.keys.Pairwise fun tag tag' => Apart (schema'.statesOf tag)
        (schema'.statesOf tag') :=
      ((h.elements.map Prod.fst).pairwise_iff fun h => h.symm).mpr (pairwise_apart_of_ofGrammar hg')
    have hcongr : ∀ tag (f f' : Equiv.Perm State), (∀ s ∈ schema.statesOf tag, f s = f' s) →
        (schema'.rule? tag = (schema.rule? tag).map fun r => r.rename f) →
          schema'.rule? tag = (schema.rule? tag).map fun r => r.rename f' := by
      intro tag f f' hagree heq
      rw [heq]
      cases hr : schema.rule? tag with
      | none => rfl
      | some r => exact congrArg some (ElementRule.rename_congr (statesOf_eq hr ▸ hagree))
    obtain ⟨f, hf, hall⟩ :=
      exists_recoding_forall hcongr (fun _ _ _ hf heq => statesOf_rename hg hf heq) hrec
      hapart hapart'
    refine ⟨f, f.injective, hf.start, hf.fin, fun tag => ?_⟩
    cases hr : schema.rule? tag with
    | some r =>
        rw [← hr]
        exact hall tag (keys_of_ofGrammar hg ▸ OrderedTable.mem_keys_of_get? hr)
    | none =>
        obtain ⟨f', -, heq⟩ := exists_rename_of_reordered h hg hg' tag
        rw [heq, hr]
        rfl

/-- A letter: both definitions are needed, one of them twice. -/
def letter : Grammar where
  elements := .ofList [
    ("from", { content := .sequence [.ref "name", .token "date"] }),
    ("to", { content := .sequence [.ref "address", .optional (.token "date")], attributes :=
      ["via"] })]
  definitions := .ofList [
    ("name", .sequence [.token "first", .token "last"]),
    ("address", .sequence [.ref "name", .plus (.token "line")])]
  kinds := .ofList [("from", .note), ("to", .container)]

/-- The letter, declared from its end. -/
def letterTurned : Grammar where
  elements := .ofList letter.elements.entries.reverse
  definitions := .ofList letter.definitions.entries.reverse
  kinds := .ofList letter.kinds.entries.reverse

theorem exists_of_map_eq_ok {ε α β : Type} {e : Except ε α} {f : α → β} {y : β}
    (h : e.map f = .ok y) : ∃ x, e = .ok x ∧ f x = y := by
  cases e with
  | ok x => exact ⟨x, rfl, Except.ok.inj h⟩
  | error e => exact absurd h (by simp [Except.map])

/-- The name is compiled for the sender of the one and for the receiver of the other, so
the same content gets other numbers. -/
theorem ofGrammar_of_reordered_letter : letter.Reordered letterTurned ∧
    ∃ schema schema', ofGrammar .standard letter = .ok schema ∧
      ofGrammar .standard letterTurned = .ok schema' ∧
      schema.statesOf "to" = [.start, .fin, .id 3, .id 5, .id 4, .id 6] ∧
      schema'.statesOf "to" = [.start, .fin, .id 1, .id 3, .id 2, .id 4] ∧
      ∃ f : State → State, Function.Injective f ∧ f .start = .start ∧ f .fin = .fin ∧
        ∀ tag, schema'.rule? tag = (schema.rule? tag).map fun r => r.rename f := by
  have hreordered : letter.Reordered letterTurned := ⟨rfl, .swap _ _ _, .swap _ _ _, .swap _ _ _⟩
  have hstates : ((ofGrammar .standard letter).map fun s => s.statesOf "to") =
      .ok [.start, .fin, .id 3, .id 5, .id 4, .id 6] := by cbv
  have hstates' : ((ofGrammar .standard letterTurned).map fun s => s.statesOf "to") =
      .ok [.start, .fin, .id 1, .id 3, .id 2, .id 4] := by cbv
  obtain ⟨schema, hg, hto⟩ := exists_of_map_eq_ok hstates
  obtain ⟨hboth, hrename⟩ := ofGrammar_of_reordered hreordered .standard
  obtain ⟨schema', hg'⟩ := hboth.mp ⟨schema, hg⟩
  rw [hg'] at hstates'
  exact ⟨hreordered, schema, schema', hg, hg', hto, Except.ok.inj hstates',
    hrename schema schema' hg hg'⟩

end Schema

end TreeGrammar
