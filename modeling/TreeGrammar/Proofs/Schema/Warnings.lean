/-
Where an ambiguity is reported.

All elements of a grammar are compiled in one session, and what a definition loses is
put on record at the element that it is compiled for, which is the first that needs it.
So the warnings at an element depend on the elements declared before it, and on these
through the definitions that both need (`labelsAt_eq`): compared with the grammar that
declares the element alone, a label is missing **only if it is reported already**, at an
earlier element that needs the definition in which it is lost (`labelsAt_of_only`).
-/
import TreeGrammar.Proofs.Compile.Accounts
import TreeGrammar.Proofs.Schema.DeclarationOrder

set_option autoImplicit false

namespace TreeGrammar

open Compiling

/-- The grammar with the same definitions that declares **one element only**, and no
kind or start. -/
def Grammar.only (g : Grammar) (tag : String) (d : Declaration) : Grammar where
  elements := .ofList [(tag, d)]
  definitions := g.definitions

/-- The definitions that are needed **for some declarations**. -/
def Rulebook.neededBy (book : Rulebook) (ds : List (String × Declaration)) : Set String :=
  {name | ∃ p ∈ ds, name ∈ book.neededFor p.2.content}

namespace Schema

/-- The labels of the warnings that are located **at an element**. -/
def labelsAt (schema : Schema) (tag : String) : Set Label :=
  labelsOf (schema.warnings.filter fun w => decide (w.location = some tag))

variable {book : Rulebook} {kinds kinds' : OrderedTable String ElementKind}
  {s s' : Session} {tag : String} {d : Declaration} {r : ElementRule}
  {ds before after : List (String × Declaration)} {rs : List (String × ElementRule)}
  {limits : Limits} {g : Grammar} {schema : Schema}

/-! ## Accounts of declarations -/

theorem accounts_compileRule (hs : s.Ready book) (hclosed : book.Closed s.done)
    (h : (compileRule book kinds tag d).Yields s r s') :
    Accounts book (book.neededFor d.content) (book.lostFor d.content)
      { s with location := some tag } s' := by
  obtain ⟨c, kind, hc, -⟩ := exists_of_yields_compileRule h
  exact accounts_pattern (hs.located (some tag)).sound hclosed hc

/-- Between two declarations the session is ready, and **all that its definitions
use is done**. -/
structure Settled (book : Rulebook) (s : Session) : Prop where
  ready : s.Ready book
  closed : book.Closed s.done

/-- In a new session there is **nothing to settle**. -/
theorem settled_new (book : Rulebook) : Settled book {} :=
  ⟨Session.ready_new book, fun _ hname => absurd hname (by simp [Session.done])⟩

/-- A rule that is compiled **keeps the account settled**. What it needs is settled by the
references in it, and no name that was settled before is lost. -/
theorem Settled.compileRule (hs : Settled book s)
    (h : (compileRule book kinds tag d).Yields s r s') : Settled book s' := by
  obtain ⟨hs', -, -⟩ := numbersItsTables_compileRule book kinds tag d s r s' hs.ready h
  exact ⟨hs', (accounts_compileRule hs.ready hs.closed h).closed
    (book.closed_neededFor d.content) hs.closed⟩

/-- What declarations need is done after them, and their warnings are located **at their
own elements**. -/
theorem settled_of_compileRules (hs : Settled book s)
    (h : (compileRules book kinds ds).Yields s rs s') :
    Settled book s' ∧ s'.done = s.done ∪ book.neededBy ds ∧
      ∃ more, s'.warnings = s.warnings ++ more ∧ ∀ w ∈ more, ∃ p ∈ ds, w.location = some p.1 := by
  induction ds generalizing s rs with
  | nil =>
      obtain ⟨rfl, rfl⟩ := yields_compileRules_nil.mp h
      exact ⟨hs, by simp [Rulebook.neededBy], [], by simp⟩
  | cons p rest ih =>
      obtain ⟨r, s₁, more, hr, hmore, rfl⟩ := yields_compileRules_cons.mp h
      have haccounts := accounts_compileRule hs.ready hs.closed hr
      obtain ⟨own, hown, hplace, -⟩ := haccounts.warnings
      obtain ⟨hs', hdone, later, hlater, hplaces⟩ := ih (hs.compileRule hr) hmore
      refine ⟨hs', ?_, own ++ later, ?_, ?_⟩
      -- what this declaration needs is done, and then what the later ones need
      · rw [hdone, haccounts.done_eq]
        ext name
        simp only [Rulebook.neededBy, Set.mem_union, Set.mem_ofPred_eq, List.exists_mem_cons_iff,
          or_assoc]
        rfl
      · rw [hlater, hown, List.append_assoc]
      · intro w hw
        rcases List.mem_append.mp hw with hw | hw
        · exact ⟨p, List.mem_cons_self, hplace w hw⟩
        · obtain ⟨q, hq, hlocation⟩ := hplaces w hw
          exact ⟨q, List.mem_cons_of_mem p hq, hlocation⟩

/-- Warnings at other elements leave no label at this one. A warning is placed at the
element whose content was being compiled, also where it comes from a definition. -/
theorem filter_located_eq_nil {ws : List Warning} (hws : ∀ w ∈ ws, ∃ p ∈ ds, w.location = some p.1)
    (htag : tag ∉ ds.map Prod.fst) : (ws.filter fun w => decide (w.location = some tag)) = [] := by
  rw [List.filter_eq_nil_iff]
  intro w hw heq
  obtain ⟨p, hp, hlocation⟩ := hws w hw
  rw [hlocation, decide_eq_true_eq, Option.some.injEq] at heq
  exact htag (List.mem_map.mpr ⟨p, hp, heq⟩)

/-! ## Labels at an element -/

/-- An element of a grammar that compiles is compiled in a settled session, in which
**what the elements before it need** is done. -/
theorem exists_settled_of_ofGrammar (hg : ofGrammar limits g = .ok schema)
    (hsplit : g.elements.entries = before ++ (tag, d) :: after) :
    ∃ s₁ r s₂ rs s', Settled (bookOf limits g) s₁ ∧ s₁.done = (bookOf limits g).neededBy before ∧
      (∀ w ∈ s₁.warnings, ∃ p ∈ before, w.location = some p.1) ∧
      (compileRule (bookOf limits g) g.kinds tag d).Yields s₁ r s₂ ∧
      (compileRules (bookOf limits g) g.kinds after).Yields s₂ rs s' ∧
      schema.warnings = s'.warnings := by
  obtain ⟨hsize, hmentions, s', hrun⟩ := yields_of_ofGrammar hg
  have hwarnings : schema.warnings = s'.warnings := by
    rw [ofGrammar_of_yields hsize hmentions hrun, Except.ok.injEq] at hg
    rw [← hg]
  rw [hsplit, yields_compileRules_append] at hrun
  obtain ⟨_, s₁, _, hbefore, hrun, -⟩ := hrun
  obtain ⟨r, s₂, rs, hr, hafter, -⟩ := yields_compileRules_cons.mp hrun
  obtain ⟨hs₁, hdone, more, hmore, hplaces⟩ := settled_of_compileRules (settled_new _) hbefore
  refine ⟨s₁, r, s₂, rs, s', hs₁, ?_, fun w hw => hplaces w ?_, hr, hafter, hwarnings⟩
  · rw [hdone, Set.union_eq_right]
    exact fun name hname => absurd hname (by simp [Session.done])
  · rwa [hmore] at hw

/-- At an element are reported the labels lost in its content, and those lost in the
definitions that are needed for it and **for no element before it**. -/
theorem labelsAt_eq (hg : ofGrammar limits g = .ok schema)
    (hsplit : g.elements.entries = before ++ (tag, d) :: after) :
    schema.labelsAt tag = (bookOf limits g).lostFor d.content ∪
      (bookOf limits g).lostIn
      ((bookOf limits g).neededFor d.content \ (bookOf limits g).neededBy before) := by
  obtain ⟨s₁, r, s₂, rs, s', hs₁, hdone, hplaces, hr, hafter, hwarnings⟩ :=
    exists_settled_of_ofGrammar hg hsplit
  obtain ⟨own, hown, hplace, hlabels⟩ := (accounts_compileRule hs₁.ready hs₁.closed hr).warnings
  obtain ⟨-, -, later, hlater, hplaces'⟩ := settled_of_compileRules (hs₁.compileRule hr) hafter
  -- no tag is declared twice, so the neighbours have other tags
  have hnodup := g.elements.keys_nodup
  rw [hsplit, List.map_append, List.map_cons, List.nodup_middle, List.nodup_cons, List.mem_append,
    not_or] at hnodup
  obtain ⟨⟨htag, htag'⟩, -⟩ := hnodup
  have hown' : own.filter (fun w => decide (w.location = some tag)) = own :=
    List.filter_eq_self.mpr fun w hw => decide_eq_true (hplace w hw)
  rw [labelsAt, hwarnings, hlater, hown, List.filter_append, List.filter_append,
    filter_located_eq_nil hplaces htag, filter_located_eq_nil hplaces' htag', hown',
      List.nil_append, List.append_nil, ← hdone]
  exact hlabels

/-- An element of a grammar that compiles can be compiled **alone**. Its content
compiles again in a new session, as it did in the one that the declarations before it
had left. -/
theorem exists_ofGrammar_only (hg : ofGrammar limits g = .ok schema)
    (hsplit : g.elements.entries = before ++ (tag, d) :: after) :
    ∃ alone, ofGrammar limits (g.only tag d) = .ok alone := by
  obtain ⟨hsize, -, -⟩ := yields_of_ofGrammar hg
  obtain ⟨s₁, r, s₂, -, -, hs₁, -, -, hr, -, -⟩ := exists_settled_of_ofGrammar hg hsplit
  obtain ⟨r', s₃, hr', -, -, -⟩ :=
    reruns_compileRule _ _ _ _ s₁ r s₂ {} hs₁.ready hr (Session.ready_new _)
  -- the kinds that are declared do not decide whether a content compiles
  obtain ⟨htag, hattributes, c, hc, hnames, -⟩ := yields_compileRule.mp hr'
  have halone :
      ∃ rs s', (compileRules (bookOf limits (g.only tag d)) .empty [(tag, d)]).Yields {} rs s' :=
    ⟨_, s₃, yields_compileRules_cons.mpr
      ⟨_, s₃, [], yields_compileRule.mpr ⟨htag, hattributes, c, hc, hnames, rfl⟩,
        yields_compileRules_nil.mpr ⟨rfl, rfl⟩, rfl⟩⟩
  have hpos : 1 ≤ g.elements.size := by
    rw [OrderedTable.size, hsplit, List.length_append, List.length_cons]
    omega
  have hsize' : limits.check .elements (g.only tag d).elements.size = .ok () := by
    rw [Limits.check_eq_ok_iff] at hsize ⊢
    exact Nat.le_trans hpos hsize
  obtain ⟨rs, s', halone⟩ := halone
  exact ⟨_, ofGrammar_of_yields hsize' rfl halone⟩

/-- The warnings at an element depend on its neighbours **in one way only**. Declared
alone, with the same definitions, an element has the labels lost in its content and in
the definitions that it needs; among others it has these but for what is lost in
definitions that an element before it needs. So a label that is missing is reported at
an earlier element, and none is missing where the element shares no definition with an
earlier one. -/
theorem labelsAt_of_only (hg : ofGrammar limits g = .ok schema)
    (hsplit : g.elements.entries = before ++ (tag, d) :: after) :
    ∃ alone, ofGrammar limits (g.only tag d) = .ok alone ∧
      alone.labelsAt tag = (bookOf limits g).lostFor d.content ∪
        (bookOf limits g).lostIn ((bookOf limits g).neededFor d.content) ∧
      schema.labelsAt tag = (bookOf limits g).lostFor d.content ∪
        (bookOf limits g).lostIn
          ((bookOf limits g).neededFor d.content \ (bookOf limits g).neededBy before) ∧
      schema.labelsAt tag ⊆ alone.labelsAt tag ∧
      (∀ l ∈ alone.labelsAt tag, l ∉ schema.labelsAt tag → ∃ p ∈ before, l ∈ schema.labelsAt p.1 ∧
        ∃ name ∈ (bookOf limits g).neededFor p.2.content ∩ (bookOf limits g).neededFor d.content,
          l ∈ (bookOf limits g).lostIn {name}) ∧
      ((∀ name ∈ (bookOf limits g).neededFor d.content, name ∉ (bookOf limits g).neededBy before) →
        schema.labelsAt tag = alone.labelsAt tag) := by
  obtain ⟨alone, halone⟩ := exists_ofGrammar_only hg hsplit
  have hlabels := labelsAt_eq hg hsplit
  have hlabels' : alone.labelsAt tag = (bookOf limits g).lostFor d.content ∪
      (bookOf limits g).lostIn ((bookOf limits g).neededFor d.content) := by
    have h :=
      labelsAt_eq halone (show (g.only tag d).elements.entries = [] ++ (tag, d) :: [] from rfl)
    rwa [show (bookOf limits (g.only tag d)).neededBy [] =
      ∅ by simp [Rulebook.neededBy], Set.sdiff_empty] at h
  refine ⟨alone, halone, hlabels', hlabels, ?_, ?_, ?_⟩
  · rw [hlabels, hlabels']
    exact Set.union_subset_union_right _ (Rulebook.lostIn_mono Set.sdiff_subset)
  · intro l hl hmissing
    rw [hlabels, Set.mem_union, not_or] at hmissing
    rw [hlabels'] at hl
    obtain ⟨name, hname, hlost⟩ := hl.resolve_left hmissing.1
    have hneeded : ∃ p ∈ before, name ∈ (bookOf limits g).neededFor p.2.content := by
      by_contra hnone
      exact hmissing.2 ⟨name, ⟨hname, hnone⟩, hlost⟩
    -- the first element that needs the definition has it compiled, so what it loses is
    -- reported there
    obtain ⟨front, p, back, rfl, hfront, hp⟩ := exists_first hneeded
    refine ⟨p, List.mem_append_right _ List.mem_cons_self, ?_, name, ⟨hp, hname⟩, name, rfl, hlost⟩
    rw [List.append_assoc, List.cons_append] at hsplit
    rw [labelsAt_eq hg hsplit]
    refine .inr ⟨name, ⟨hp, ?_⟩, hlost⟩
    rintro ⟨q, hq, hearlier⟩
    exact hfront q hq hearlier
  · intro hunshared
    have hall : (bookOf limits g).neededFor d.content \ (bookOf limits g).neededBy before =
        (bookOf limits g).neededFor d.content :=
          Set.ext fun name => ⟨And.left, fun h => ⟨h, hunshared name h⟩⟩
    rw [hlabels, hlabels', hall]

/-- The labels at an element are those of **the warnings put at it**, read off the list
of warnings. -/
theorem mem_labelsAt_iff {l : Label} :
    l ∈ schema.labelsAt tag ↔ (some tag, l) ∈ schema.warnings.map
      fun w => (w.location, w.collision.label) := by
  simp [labelsAt, labelsOf, and_assoc]

/-- Two elements with the same content, a title with an author or without: that
is ambiguous. -/
def shelf : Grammar where
  elements := .ofList [("book", { content := .ref "entry" }), ("tape", { content := .ref "entry" })]
  definitions :=
    .ofList [("entry", .choice [.token "title", .sequence [.token "title", .token "author"]])]

theorem warnings_shelf : ((ofGrammar .standard shelf).map fun s => s.warnings.map fun w =>
    (w.location, w.collision.label)) = .ok [(some "book", .token (.element "title"))] := by cbv

theorem warnings_shelf_only :
    ((ofGrammar .standard (shelf.only "tape" { content := .ref "entry" })).map fun s =>
    s.warnings.map fun w => (w.location, w.collision.label)) =
      .ok [(some "tape", .token (.element "title"))] := by cbv

/-- What is ambiguous in both elements is **reported at the first** only. -/
theorem labelsAt_ne_of_only : ∃ schema alone, ofGrammar .standard shelf = .ok schema ∧
    ofGrammar .standard (shelf.only "tape" { content := .ref "entry" }) = .ok alone ∧
    schema.labelsAt "tape" = ∅ ∧ alone.labelsAt "tape" = {.token (.element "title")} := by
  obtain ⟨schema, hg, hwarnings⟩ := exists_of_map_eq_ok warnings_shelf
  obtain ⟨alone, halone, hwarnings'⟩ := exists_of_map_eq_ok warnings_shelf_only
  refine ⟨schema, alone, hg, halone, ?_, ?_⟩
  · ext l
    simp [mem_labelsAt_iff, hwarnings]
  · ext l
    simp [mem_labelsAt_iff, hwarnings']

/-- The label that is missing at the second element is found at the first. -/
theorem labelsAt_of_only_shelf : ∃ schema alone, ofGrammar .standard shelf = .ok schema ∧
    ofGrammar .standard (shelf.only "tape" { content := .ref "entry" }) = .ok alone ∧
    schema.labelsAt "tape" ⊆ alone.labelsAt "tape" ∧ alone.labelsAt "tape" ⊆
      schema.labelsAt "book" := by
  obtain ⟨schema, hg, hwarnings⟩ := exists_of_map_eq_ok warnings_shelf
  have hsplit : shelf.elements.entries =
      [("book", { content := .ref "entry" })] ++ ("tape", { content := .ref "entry" }) :: [] := by
        decide
  obtain ⟨alone, halone, -, -, hsubset, hmissing, -⟩ := labelsAt_of_only hg hsplit
  refine ⟨schema, alone, hg, halone, hsubset, fun l hl => ?_⟩
  have htape : l ∉ schema.labelsAt "tape" := by simp [mem_labelsAt_iff, hwarnings]
  obtain ⟨p, hp, hbook, -⟩ := hmissing l hl htape
  rwa [List.mem_singleton.mp hp] at hbook

end Schema

end TreeGrammar
