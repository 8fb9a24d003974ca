/-
The valid documents of a grammar.

For a grammar whose contents are one-unambiguous a schema adds nothing to what the
grammar says: a document is valid exactly if its root is the start element and the
children of every element spell a word of the language that its declaration describes
(`validateDocument_eq_nil_iff_fits`). No table, state or number is mentioned any more.

One thing has to be said about blank text, which a validator passes over where it is not
taken. The tables of such a grammar are exact and have no dead ends, so a token is taken
exactly where some word of the language goes on with it, and "where it is not taken" is
again a matter of the language: `Slot.SpellIn` passes over blank text that no word goes
on with. Where no word has text at all, that leaves the tokens of the other children
(`fits_iff_of_textless`).
-/
import TreeGrammar.Proofs.Compile.DeadEnds
import TreeGrammar.Proofs.Compile.Exactness
import TreeGrammar.Proofs.Markup.Cut
import TreeGrammar.Proofs.Schema.DeclarationOrder
import TreeGrammar.Proofs.Validation.Verdict

set_option autoImplicit false

namespace TreeGrammar

/-! ## Spelling a word of a language -/

/-- Behind the word `u`, slots **spell** a longer word in a language: a token comes next
that some word of the language goes on with, or blank text that none goes on with, which
counts for nothing. -/
inductive Slot.SpellIn (L : Language Token) : List Token → List Slot → List Token → Prop
  | nil (u : List Token) : SpellIn L u [] u
  | taken {u v : List Token} {slot : Slot} {rest : List Slot} (h : ∃ w, u ++ slot.token :: w ∈ L)
      (hrest : SpellIn L (u ++ [slot.token]) rest v) : SpellIn L u (slot :: rest) v
  | passed {u v : List Token} {slot : Slot} {rest : List Slot}
      (h : ¬ ∃ w, u ++ slot.token :: w ∈ L) (hblank : slot.blank = true)
      (hrest : SpellIn L u rest v) : SpellIn L u (slot :: rest) v

namespace Slot

variable {L : Language Token} {u v : List Token} {slot : Slot} {slots rest : List Slot}

/-- With no slots left the word is **what has been spelled so far**. -/
theorem spellIn_nil : SpellIn L u [] v ↔ v = u := by
  constructor
  · rintro ⟨⟩
    rfl
  · rintro rfl
    exact .nil v

/-- A slot whose token can be **gone on with** inside the language has to be spelled. -/
theorem spellIn_cons_of_exists (h : ∃ w, u ++ slot.token :: w ∈ L) :
    SpellIn L u (slot :: rest) v ↔ SpellIn L (u ++ [slot.token]) rest v := by
  refine ⟨fun hspell => ?_, .taken h⟩
  cases hspell with
  | taken _ hrest => exact hrest
  | passed hnot _ _ => exact absurd h hnot

/-- A slot whose token leads out of the language is skipped if it is **blank**. A slot that
is not blank leaves no word at all. -/
theorem spellIn_cons_of_not_exists (h : ¬ ∃ w, u ++ slot.token :: w ∈ L) :
    SpellIn L u (slot :: rest) v ↔ slot.blank = true ∧ SpellIn L u rest v := by
  refine ⟨fun hspell => ?_, fun hspell => .passed h hspell.1 hspell.2⟩
  cases hspell with
  | taken hgoes _ => exact absurd hgoes h
  | passed _ hblank hrest => exact ⟨hblank, hrest⟩

/-- Where the tokens of blank slots occur in no word, slots spell a word of the language
exactly if **the tokens of the others** do. -/
theorem exists_spellIn_iff (h : ∀ slot ∈ slots, slot.blank = true → ∀ w ∈ L, slot.token ∉ w) :
    (∃ v ∈ L, SpellIn L u slots v) ↔
      u ++ (slots.filter fun slot => !slot.blank).map Slot.token ∈ L := by
  induction slots generalizing u with
  | nil =>
      simp only [spellIn_nil, List.filter_nil, List.map_nil, List.append_nil]
      exact ⟨fun ⟨v, hv, heq⟩ => heq ▸ hv, fun hu => ⟨u, hu, rfl⟩⟩
  | cons slot rest ih =>
      have ih (u : List Token) :=
        ih (u := u) fun other hother => h other (List.mem_cons_of_mem slot hother)
      cases hblank : slot.blank with
      | true =>
          -- a word that goes on with the token would have it
          have hnot : ¬ ∃ w, u ++ slot.token :: w ∈ L := by
            rintro ⟨w, hw⟩
            exact h slot List.mem_cons_self hblank _ hw (by simp)
          simp only [spellIn_cons_of_not_exists hnot, hblank, true_and, ih]
          rw [List.filter_cons_of_neg (by simp [hblank])]
      | false =>
          rw [List.filter_cons_of_pos (by simp [hblank]), List.map_cons]
          by_cases hgoes : ∃ w, u ++ slot.token :: w ∈ L
          · simp only [spellIn_cons_of_exists hgoes, ih]
            rw [List.append_assoc]
            rfl
          · simp only [spellIn_cons_of_not_exists hgoes, hblank, Bool.false_eq_true,
              false_and, and_false, exists_false]
            exact iff_of_false id fun hmem => hgoes ⟨_, hmem⟩

end Slot

/-! ## Reading is spelling -/

/-- An exact table without dead ends reads slots to an end exactly if they **spell a
word** that it spells. -/
theorem Made.exists_reads_iff {r : Regex} {a : Automaton} {cs : List Collision} (h : Made r a cs)
    (hcoherent : a.Coherent) {u : List Token} {s : State} (hrun : a.run .start u = some s)
    (slots : List Slot) :
    (∃ last, (Expression.single a).Reads (.single s) slots last ∧
        (Expression.single a).isFinishedAt last = true) ↔
      ∃ v ∈ a.spelled, Slot.SpellIn a.spelled u slots v := by
  induction slots generalizing u s with
  | nil =>
      have hend : a.isFinished s = true ↔ u ∈ a.spelled := by
        have hreads := Automaton.reads_append (w := []) hrun
        rw [List.append_nil] at hreads
        rw [← hcoherent.accepts_iff, Automaton.accepts_iff, hreads, Automaton.reads_nil,
          Automaton.isFinished_iff]
      simp only [Slot.spellIn_nil]
      constructor
      · rintro ⟨last, hread, hfinished⟩
        cases hread
        exact ⟨u, hend.mp hfinished, rfl⟩
      · rintro ⟨v, hv, rfl⟩
        exact ⟨.single s, .nil _, hend.mpr hv⟩
  | cons slot rest ih =>
      -- the token is taken exactly if a word goes on with it
      have hgoes : (∃ t, a.consume s slot.token = some t) ↔
          ∃ w, u ++ slot.token :: w ∈ a.spelled := by
        have hnext := h.exists_run_iff hcoherent (u := u ++ [slot.token])
        simp only [List.append_assoc, List.singleton_append] at hnext
        rw [← hnext, Automaton.run_append, hrun, Option.bind_some, Automaton.run]
        cases a.consume s slot.token <;> simp [Automaton.run]
      cases hc : a.consume s slot.token with
      | some t =>
          have hadvance :
              (Expression.single a).advance (.single s) slot.token = some (.single t) := by
            rw [Expression.advance, hc, Option.map_some]
          have hrun' : a.run .start (u ++ [slot.token]) = some t := by
            rw [Automaton.run_append, hrun, Option.bind_some, Automaton.run, hc]
            rfl
          simp only [Expression.reads_cons_of_some hadvance, ih hrun',
            Slot.spellIn_cons_of_exists (hgoes.mp ⟨t, hc⟩)]
      | none =>
          have hadvance : (Expression.single a).advance (.single s) slot.token = none := by
            rw [Expression.advance, hc, Option.map_none]
          have hnot : ¬ ∃ w, u ++ slot.token :: w ∈ a.spelled := by
            rw [← hgoes, hc]
            simp
          simp only [Expression.reads_cons_of_none hadvance, Slot.spellIn_cons_of_not_exists hnot,
            and_assoc, and_left_comm (a := _ ∈ _), exists_and_left, ih hrun]

/-! ## Declarations -/

/-- A declaration **fits** an element: its attributes are declared or declare
namespaces, and its children spell a word of the declared content. -/
structure Declaration.Fits (defs : OrderedTable String Pattern) (d : Declaration) (e : Element) :
    Prop where
  attributes : ∀ name ∈ e.attributes.keys,
    name ∈ d.attributes ∨ name = "xmlns" ∨ "xmlns:".toList <+: name.toList
  children : ∃ w ∈ d.content.language defs,
    Slot.SpellIn (d.content.language defs) [] (Slot.ofNodes e.children) w

/-- Where no word of a content has text, blank text counts for nothing anywhere: a
declaration fits an element exactly if **the other tokens of its children** are a word of
the content. Text that is not blank is among them, and then they are none. -/
theorem Declaration.fits_iff_of_textless {defs : OrderedTable String Pattern} {d : Declaration}
    (h : ∀ w ∈ d.content.language defs, Token.text ∉ w) (e : Element) :
    d.Fits defs e ↔
      (∀ name ∈ e.attributes.keys,
        name ∈ d.attributes ∨ name = "xmlns" ∨ "xmlns:".toList <+: name.toList) ∧
      ((Slot.ofNodes e.children).filter fun slot => !slot.blank).map Slot.token ∈
        d.content.language defs := by
  have hblank : ∀ slot ∈ Slot.ofNodes e.children, slot.blank = true →
      ∀ w ∈ d.content.language defs, slot.token ∉ w := by
    intro slot hslot hblank w hw
    rw [Slot.token_of_mem_ofNodes hslot hblank]
    exact h w hw
  have hspell := Slot.exists_spellIn_iff (u := []) hblank
  exact ⟨fun hfits => ⟨hfits.attributes, hspell.mp hfits.children⟩,
    fun ⟨hattributes, hword⟩ => ⟨hattributes, hspell.mpr hword⟩⟩

/-- The pattern expands to a **one-unambiguous** expression. -/
def Pattern.IsOneUnambiguous (defs : OrderedTable String Pattern) (p : Pattern) : Prop :=
  ∃ r, p.Expands defs r ∧ r.OneUnambiguous

/-- All declared contents are **one-unambiguous**. -/
def Grammar.IsOneUnambiguous (g : Grammar) : Prop :=
  ∀ tag d, g.elements.get? tag = some d → d.content.IsOneUnambiguous g.definitions

namespace Schema

open Compiling

variable {book : Rulebook} {kinds : OrderedTable String ElementKind} {tag : String}
  {d : Declaration} {rule : ElementRule} {limits : Limits} {g : Grammar} {schema : Schema}

/-- The rule of a one-unambiguous declaration admits **the elements that the declaration
fits**, in whatever session it was compiled. -/
theorem CompilesTo.admits_iff (h : CompilesTo book kinds (tag, d) (tag, rule))
    (hone : d.content.IsOneUnambiguous book.definitions) (e : Element) :
    rule.Admits e ↔ d.Fits book.definitions e := by
  obtain ⟨-, s, s', hs, hrule⟩ := h
  obtain ⟨c, kind, hc, rfl⟩ := exists_of_yields_compileRule hrule
  obtain ⟨r, hexp, hr⟩ := hone
  obtain ⟨a, rfl⟩ := exists_single_of_expands hexp hc
  obtain ⟨r', cs, hexp', hmade, -, -⟩ := delivers_pattern (hs.located (some tag)).sound hc
  obtain rfl := hexp.unique hexp'
  have hspelled : a.spelled = d.content.language book.definitions := by
    rw [hmade.spelled_eq (hmade.eq_nil hr), hexp.language_eq]
  have hchildren := hmade.exists_reads_iff (hmade.coherent_of_oneUnambiguous hr) (u := []) rfl
    (Slot.ofNodes e.children)
  rw [hspelled] at hchildren
  constructor
  · rintro ⟨hattributes, hread⟩
    exact ⟨fun name hname => (hattributes name hname).imp_left List.mem_eraseDups.mp,
      hchildren.mp hread⟩
  · rintro ⟨hattributes, hspell⟩
    exact ⟨fun name hname => (hattributes name hname).imp_left List.mem_eraseDups.mpr,
      hchildren.mpr hspell⟩

/-- An element is declared and its rule admits it exactly if **a declaration fits
it**. The rule of an element is compiled from its declaration, and its contents
are one-unambiguous. -/
theorem exists_admits_iff (hg : ofGrammar limits g = .ok schema) (hone : g.IsOneUnambiguous)
    (e : Element) : (∃ r, schema.rule? e.tag = some r ∧ r.Admits e) ↔
      ∃ d, g.elements.get? e.tag = some d ∧ d.Fits g.definitions e := by
  obtain ⟨-, -, s', hrun⟩ := yields_of_ofGrammar hg
  have hrel := rel_get?_of_compilesTo (compilesTo_of_yields (Session.ready_new _) hrun) e.tag
  unfold rule?
  -- the tag is declared on both sides or on neither
  cases hd : g.elements.get? e.tag with
  | none =>
      rw [hd] at hrel
      cases hr : schema.elements.get? e.tag with
      | none => simp
      | some r =>
          rw [hr] at hrel
          cases hrel
  | some d =>
      rw [hd] at hrel
      cases hr : schema.elements.get? e.tag with
      | none =>
          rw [hr] at hrel
          cases hrel
      | some r =>
          rw [hr] at hrel
          cases hrel with
          | some hcompiles =>
              have hadmits : r.Admits e ↔ d.Fits g.definitions e :=
                hcompiles.admits_iff (hone e.tag d hd) e
              simpa using hadmits

theorem start_eq_of_ofGrammar (hg : ofGrammar limits g = .ok schema) : schema.start = g.start := by
  obtain ⟨hsize, hmentions, s', hrun⟩ := yields_of_ofGrammar hg
  have heq := hg.symm.trans (ofGrammar_of_yields hsize hmentions hrun)
  rw [Except.ok.inj heq]

/-- **The valid documents of a grammar.** Where all contents are one-unambiguous, a
document has no violations exactly if its root is the start element, where the grammar
names one, and every element of the tree is not too deep and is fitted by its
declaration: its children spell a word of the declared content. -/
theorem validateDocument_eq_nil_iff_fits (hg : ofGrammar limits g = .ok schema)
    (hone : g.IsOneUnambiguous) (bounds : Limits) (root : Element) :
    (Validator.mk schema .strict bounds).validateDocument root = [] ↔
      (∀ start, g.start = some start → root.tag = start) ∧
        ∀ depth e, root.Has depth e → depth ≤ bounds.documentDepth ∧
          ∃ d, g.elements.get? e.tag = some d ∧ d.Fits g.definitions e := by
  have hmode : (Validator.mk schema .strict bounds).mode ≠ .skip := by
    intro h
    cases h
  rw [Validator.validateDocument_eq _ hmode, List.append_eq_nil_iff,
    Validator.ledgerForRoot_eq_nil_iff _ hmode, Scope.walk_clear_iff rfl]
  simp only [Validator.scope, exists_admits_iff hg hone, start_eq_of_ofGrammar hg]

/-- A list of any number of `a`, and then a `b`, which are empty. -/
def listing : Grammar where
  start := "list"
  elements := .ofList [
    ("list", { content := series }), ("a", { content := .sequence [] }),
    ("b", { content := .sequence [] })]

theorem isOneUnambiguous_listing : listing.IsOneUnambiguous := by
  have hempty : Pattern.IsOneUnambiguous listing.definitions (.sequence []) :=
    ⟨.one, ⟨_, _, rfl, rfl, .sequenceNil⟩, fun p => p.elim, fun p => p.elim⟩
  intro tag d hd
  have hmem := (OrderedTable.mem_entries_iff _ _ _).mpr hd
  have hentries : listing.elements.entries = [("list", { content := series }),
      ("a", { content := .sequence [] }), ("b", { content := .sequence [] })] := by cbv
  rw [hentries] at hmem
  simp only [List.mem_cons, Prod.mk.injEq, List.not_mem_nil, or_false] at hmem
  rcases hmem with ⟨-, rfl⟩ | ⟨-, rfl⟩ | ⟨-, rfl⟩
  · exact ⟨seriesRegex, expands_series, oneUnambiguous_series⟩
  · exact hempty
  · exact hempty

/-- The list is a grammar of the kind, so its valid documents are those that fit. -/
theorem validateDocument_eq_nil_iff_fits_listing :
    ∃ schema, ofGrammar .standard listing = .ok schema ∧ ∀ bounds root,
      (Validator.mk schema .strict bounds).validateDocument root = [] ↔
        (∀ start, listing.start = some start → root.tag = start) ∧
          ∀ depth e, root.Has depth e → depth ≤ bounds.documentDepth ∧
            ∃ d, listing.elements.get? e.tag = some d ∧ d.Fits listing.definitions e := by
  have htags : ((ofGrammar .standard listing).map tags) = .ok ["list", "a", "b"] := by cbv
  obtain ⟨schema, hg, -⟩ := exists_of_map_eq_ok htags
  exact ⟨schema, hg, validateDocument_eq_nil_iff_fits hg isOneUnambiguous_listing⟩

end Schema

end TreeGrammar
