/-
Which tokens a compiled pattern allows.

A compiled content allows the tokens that its tables can reach, and what it should allow
are the tokens that occur in its pattern, references written out. Whatever was lost, it
allows no others, since operators bring in no token of their own. That it allows all of
them is less plain: an edge may be left at a state that nothing leads to. But where
nothing was lost, a table spells every word of its expression, and each token stands in
one; the path of that word reaches it. So without a warning the two are the same
(`isAllowed_iff_occurs`).
-/
import TreeGrammar.Proofs.Analysis.Reachability
import TreeGrammar.Proofs.Automaton.Labels
import TreeGrammar.Proofs.Compile.Inlining
import TreeGrammar.Proofs.Compile.Refusal
import TreeGrammar.Proofs.Pattern.Occurs

set_option autoImplicit false

namespace TreeGrammar

open Automaton Compiling

/-! ## Tables made for an expression -/

namespace Made

variable {r : Regex} {a : Automaton} {cs : List Collision} {x : Token}

/-- Every edge is for a token **of the expression**, whatever was lost. By induction on
how the table is made: copies, joins and merges put in no edge with a new label. -/
theorem mem_tokens (h : Made r a cs) (hx : a.HasEdge x) : x ∈ r.tokens := by
  induction h with
  | one =>
      obtain ⟨s, t, hedge⟩ := hx.of_optional
      rw [target_blank] at hedge
      cases hedge
  | token y =>
      obtain ⟨s, t, hedge⟩ := hx
      obtain ⟨-, hlabel, -⟩ := target_single.mp hedge
      exact List.mem_singleton.mpr (Label.token.inj hlabel)
  | seq n ha hb hwa hwb iha ihb =>
      exact List.mem_append.mpr ((hx.of_append ha.wellFormed hb.wellFormed hwa hwb).imp iha ihb)
  | alt n _ _ _ _ iha ihb => exact List.mem_append.mpr (hx.of_merge.imp iha ihb)
  | optional _ ih => exact ih hx.of_optional
  | kleene n _ hwa ih => exact ih (hx.of_kleene hwa)
  | plus n _ hwa ih => exact ih (hx.of_plus hwa)
  | copy n _ ih => exact ih hx.of_copy

/-- Where nothing was lost, every token of the expression **is reached**: a path spells
a word that it stands in. -/
theorem mem_reachableTokens (h : Made r a cs) (hcs : cs = []) (hx : x ∈ r.tokens) :
    x ∈ a.reachableTokens := by
  obtain ⟨w, hw, hxw⟩ := Regex.exists_word_of_mem_tokens hx
  rw [← h.spelled_eq hcs] at hw
  exact mem_reachableTokens_of_spelled hw x hxw

end Made

/-! ## Runs -/

/-- The table was made for the expression, and the session **has on record** what was
lost then. -/
def Session.Holds (s : Session) (r : Regex) (a : Automaton) : Prop :=
  ∃ cs, Made r a cs ∧ ∀ c ∈ cs, s.Records c

section

variable {book : Rulebook} {s s' : Session} {t : Term} {ts : List Term} {r : Regex}
  {rs : List Regex} {a : Automaton} {as : List Automaton} {x : Token} {p whole : Pattern}
  {c : Compiled} {name : String}

/-- What holds in a session holds in every later one: warnings are only added. The
tables of a schema are made one after the other, and their warnings are looked at
together at the end. -/
theorem Session.Holds.mono (h : s.Holds r a) (hkeeps : ∀ w ∈ s.warnings, w ∈ s'.warnings) :
    s'.Holds r a := by
  obtain ⟨cs, hmade, hcs⟩ := h
  exact ⟨cs, hmade, fun c hc => (hcs c hc).mono hkeeps⟩

/-- A table that holds an expression has no tokens but those of the expression. This is
the half that needs no assumption on what was lost. -/
theorem Session.Holds.mem_tokens (h : s.Holds r a) (hx : x ∈ a.reachableTokens) : x ∈ r.tokens := by
  obtain ⟨cs, hmade, -⟩ := h
  exact hmade.mem_tokens (hasEdge_of_mem_reachableTokens hx)

/-- Without a warning it has **all of them**, since it spells every word and each token
is in some word. -/
theorem Session.Holds.mem_reachableTokens (h : s.Holds r a) (hwarnings : s.warnings = [])
    (hx : x ∈ r.tokens) : x ∈ a.reachableTokens := by
  obtain ⟨cs, hmade, hcs⟩ := h
  refine hmade.mem_reachableTokens (List.eq_nil_iff_forall_not_mem.mpr fun c hc => ?_) hx
  obtain ⟨w, hw, -⟩ := hcs c hc
  rw [hwarnings] at hw
  cases hw

/-- A bounded term that compiles gives a table which holds the expression that the term
expands to. What it lost is among the warnings of the session that is left. -/
theorem holds_of_boundedTerm (hs : s.Sound book.definitions)
    (h : (boundedTerm book t).Yields s a s') : ∃ r, t.Expands book.definitions r ∧ s'.Holds r a ∧
    s'.Sound book.definitions ∧
      ∀ w ∈ s.warnings, w ∈ s'.warnings := by
  obtain ⟨r, cs, hdelivers⟩ := delivers_boundedTerm hs h
  exact ⟨r, hdelivers.expands, ⟨cs, hdelivers.made, hdelivers.loses.records⟩, hdelivers.sound,
    hdelivers.loses.keeps⟩

/-- A run for blocks makes a table **for the expansion of each**; no later block takes a
warning back. -/
theorem holds_of_blocks (hs : s.Sound book.definitions) (h : (blocks book ts).Yields s as s') :
    ∃ rs, List.Forall₂ (Term.Expands book.definitions) ts rs ∧ List.Forall₂ s'.Holds rs as ∧
      ∀ w ∈ s.warnings, w ∈ s'.warnings := by
  induction ts generalizing s as with
  | nil =>
      obtain ⟨rfl, rfl⟩ := yields_blocks_nil.mp h
      exact ⟨[], .nil, .nil, fun _ hw => hw⟩
  | cons t ts ih =>
      obtain ⟨a, s₁, rest, ha, hrest, rfl⟩ := yields_blocks_cons.mp h
      obtain ⟨r, hexpands, hholds, hsound, hkeeps⟩ := holds_of_boundedTerm hs ha
      obtain ⟨rs, hall, hrs, hkeeps'⟩ := ih hsound hrest
      exact ⟨r :: rs, .cons hexpands hall, .cons (hholds.mono hkeeps') hrs,
        fun w hw => hkeeps' w (hkeeps w hw)⟩

/-- So does each term of a content, and the tables come in the order of the terms. -/
theorem holds_of_content {content : Content} (hs : s.Sound book.definitions)
    (h : (Compiling.content book content).Yields s c s') :
    ∃ rs, List.Forall₂ (Term.Expands book.definitions) content.terms rs ∧
      List.Forall₂ s'.Holds rs c.automata := by
  cases content with
  | term t =>
      obtain ⟨a, ha, rfl⟩ := yields_content_term.mp h
      obtain ⟨r, hexpands, hholds, -⟩ := holds_of_boundedTerm hs ha
      exact ⟨[r], .cons hexpands .nil, .cons hholds .nil⟩
  | interleave ts =>
      obtain ⟨as, has, rfl⟩ := yields_content_interleave.mp h
      obtain ⟨rs, hall, hrs, -⟩ := holds_of_blocks hs has
      exact ⟨rs, hall, hrs⟩

/-! ## Patterns -/

/-- The expansions of a content's terms have the tokens that **occur in its
pattern**. Lowering rearranges the pattern and may cut it into blocks; no leaf is
added or dropped. -/
theorem Content.exists_mem_tokens_iff {limits : Limits} {content : Content}
    {defs : OrderedTable String Pattern} (h : ofPattern limits p = .ok content)
    (hrs : List.Forall₂ (Term.Expands defs) content.terms rs) :
    (∃ r ∈ rs, x ∈ r.tokens) ↔ p.Occurs defs x := by
  obtain ⟨q, hq, -, hreads⟩ := ofPattern_eq_ok_iff.mp h
  rw [← Pattern.occurs_iff_of_normalize hq]
  unfold read? at hreads
  split at hreads
  · obtain ⟨ts, hts, rfl⟩ := Option.map_eq_some_iff.mp hreads
    rw [Pattern.occurs_interleave]
    exact Term.exists_mem_tokens_iff hrs hts
  · obtain ⟨t, ht, rfl⟩ := Option.map_eq_some_iff.mp hreads
    cases hrs with
    | cons hexpands hnil =>
        cases hnil
        rw [← hexpands.mem_tokens_iff ht]
        simp

namespace Rulebook

/-- What a lone reference leads to has **the tokens of the reference**. By induction on
how many references are passed. -/
theorem ResolvesTo.occurs_iff (h : book.ResolvesTo name whole) :
    whole.Occurs book.definitions x ↔ (Pattern.ref name).Occurs book.definitions x := by
  induction h with
  | interleave hdef h => rw [Pattern.occurs_iff_of_normalize h, Pattern.occurs_ref hdef]
  | regular _ _ _ _ => exact Iff.rfl
  | next hdef hnext _ ih => rw [ih, Pattern.occurs_iff_of_normalize hnext, Pattern.occurs_ref hdef]

/-- Writing a lone reference out as its definition changes nothing about what occurs.
The content of an element that is nothing but a reference is compiled from what it
stands for. -/
theorem Whole.occurs_iff (h : book.Whole p whole) :
    whole.Occurs book.definitions x ↔ p.Occurs book.definitions x := by
  cases h with
  | self h _ => exact Pattern.occurs_iff_of_normalize h
  | resolves hnormal h => rw [h.occurs_iff, Pattern.occurs_iff_of_normalize hnormal]

end Rulebook

/-- A run for a pattern makes tables for expressions that have, **together**, the tokens
that occur in the pattern. -/
theorem holds_of_pattern (hs : s.Sound book.definitions) (h : (pattern book p).Yields s c s') :
    ∃ rs, List.Forall₂ s'.Holds rs c.automata ∧
      ∀ x, (∃ r ∈ rs, x ∈ r.tokens) ↔ p.Occurs book.definitions x := by
  rcases pattern_eq book p with ⟨whole, hwhole, heq⟩ | ⟨cause, -, heq⟩
  · rw [heq, yields_bind] at h
    obtain ⟨content, s₁, hcontent, h⟩ := h
    rw [yields_ofExcept] at hcontent
    obtain ⟨hcontent, rfl⟩ := hcontent
    obtain ⟨rs, hall, hrs⟩ := holds_of_content hs h
    exact ⟨rs, hrs, fun x => (Content.exists_mem_tokens_iff hcontent hall).trans hwhole.occurs_iff⟩
  · rw [heq] at h
    exact absurd h not_yields_failHere

/-! ## Tokens -/

/-- What one of a list has, one of the other list has, if **partners pass it on**. -/
theorem exists_mem_of_forall₂ {α β : Type} {R : α → β → Prop} {P : α → Prop} {Q : β → Prop}
    {l : List α} {m : List β} (h : List.Forall₂ R l m) (hR : ∀ a b, R a b → P a → Q b)
    (hP : ∃ a ∈ l, P a) : ∃ b ∈ m, Q b := by
  induction h with
  | nil => simp at hP
  | cons hpartners _ ih =>
      rw [List.exists_mem_cons_iff] at hP ⊢
      exact hP.imp (hR _ _ hpartners) ih

/-- A token is allowed in a content if it is a token of any of its tables. Whether the
token is ever taken next does not matter here. -/
theorem isAllowed_ofCompiled_iff :
    (Expression.ofCompiled c).isAllowed x = true ↔ ∃ a ∈ c.automata, x ∈ a.reachableTokens := by
  rw [Expression.isAllowed_iff, Expression.automata_ofCompiled]

/-! ## Children -/

/-- The schema **knows of the name** as that of a child of the element: the graph has
an edge for it, the compact encoding has a tag for it, and an insertion of it is
searched for. -/
structure Schema.KnowsChild (schema : Schema) (tag name : String) : Prop where
  edge : (ElementGraph.ofSchema schema).Edge tag name
  mem_allTags : name ∈ Compact.allTags schema
  searched : ∀ r, schema.rule? tag = some r →
      ∀ w side, r.content.insertion? w (.element name) side =
    if r.content.isUnconstrained then some (side.outermost w.length)
    else (side.boundaries w.length).find? (r.content.acceptsWith w (.element name))

/-- A child that is allowed **is known of**. What a schema knows of is gathered from the
tables of its contents. -/
theorem knowsChild_of_isAllowed {schema : Schema} {tag : String} {rule : ElementRule}
    (hrule : schema.rule? tag = some rule) (h : rule.content.isAllowed (.element name) = true) :
    schema.KnowsChild tag name := by
  have hchild : name ∈ rule.childNames := by
    rw [Compact.mem_childNames_iff, ← Expression.isAllowed_iff]
    exact h
  have hmem : rule ∈ schema.rules :=
    List.mem_map_of_mem ((OrderedTable.mem_entries_iff _ _ _).mpr hrule)
  refine ⟨ElementGraph.edge_ofSchema_iff.mpr ⟨rule, hrule, hchild⟩,
    Compact.mem_allTags_of_mem_childNames hmem hchild, fun r hr w side => ?_⟩
  rw [hrule, Option.some.injEq] at hr
  subst hr
  unfold Expression.insertion?
  rw [h, Bool.not_true, if_neg Bool.false_ne_true]

/-- **What is allowed is what occurs.** Whatever a session has been used for, every
token that a compiled pattern allows occurs in the pattern, references written out.
Where the session has no warning, every token that occurs there is allowed; so a schema
with a rule for this content knows of every child that occurs in the pattern. -/
theorem isAllowed_iff_occurs (hs : s.Reached book) (h : (pattern book p).Yields s c s') :
    (∀ x, (Expression.ofCompiled c).isAllowed x = true → p.Occurs book.definitions x) ∧
      (s'.warnings = [] →
        (∀ x, p.Occurs book.definitions x → (Expression.ofCompiled c).isAllowed x = true) ∧
        ∀ schema tag rule, Schema.rule? schema tag = some rule → rule.content = .ofCompiled c →
          ∀ name, p.Occurs book.definitions (.element name) → schema.KnowsChild tag name) := by
  obtain ⟨rs, hholds, htokens⟩ := holds_of_pattern (sound_of_reached hs) h
  -- soundness asks nothing of the warnings, completeness that there are none
  have hoccurs : ∀ x, (Expression.ofCompiled c).isAllowed x = true →
      p.Occurs book.definitions x := by
    intro x hx
    rw [isAllowed_ofCompiled_iff] at hx
    have hflip : List.Forall₂ (flip s'.Holds) c.automata rs := List.Forall₂.flip hholds
    exact (htokens x).mp (exists_mem_of_forall₂ hflip (fun _ _ h => h.mem_tokens) hx)
  refine ⟨hoccurs, fun hwarnings => ?_⟩
  have hallowed : ∀ x, p.Occurs book.definitions x →
      (Expression.ofCompiled c).isAllowed x = true := by
    intro x hx
    rw [isAllowed_ofCompiled_iff]
    exact exists_mem_of_forall₂ hholds (fun _ _ h => h.mem_reachableTokens hwarnings)
      ((htokens x).mpr hx)
  refine ⟨hallowed, fun schema tag rule hrule hcontent name hname => ?_⟩
  apply knowsChild_of_isAllowed hrule
  rw [hcontent]
  exact hallowed _ hname

end

/-- A title and perhaps an author, in either order. -/
def titleAndAuthor : Pattern := .interleave [.token "title", .optional (.token "author")]

/-- One definition, of a title and an author. -/
def frontMatter : Rulebook where
  definitions := .ofList [("front", titleAndAuthor)]

/-- What a reference to the front matter is compiled to. -/
def frontContent : Compiled :=
  .interleave [.single (.element "title"), (single (.element "author")).optional]

/-- A schema of one element, a page of front matter. -/
def titlePage : Schema where
  elements := .ofList [("page",
    { tag := "page", kind := .element, attributes := [], content := .ofCompiled frontContent })]

theorem get?_frontMatter : frontMatter.definitions.get? "front" = some titleAndAuthor := by decide

/-- The front matter is compiled as a whole, through the reference. -/
theorem yields_frontMatter : (pattern frontMatter (.ref "front")).Yields {} frontContent {} := by
  have hwhole : wholeContent frontMatter [] (.ref "front") = pure titleAndAuthor := by
    rw [wholeContent_step List.not_mem_nil get?_frontMatter]
    rfl
  rw [pattern_of_normal rfl hwhole]
  rfl

/-- Behind the reference stand a title and an author. They are what is allowed, and the
page is known to have an author in it. -/
theorem isAllowed_iff_occurs_frontMatter :
    (Session.Reached frontMatter {} ∧
      (pattern frontMatter (.ref "front")).Yields {} frontContent {} ∧
      ({} : Session).warnings = []) ∧
    (∀ x, (Expression.ofCompiled frontContent).isAllowed x = true ↔
      (Pattern.ref "front").Occurs frontMatter.definitions x) ∧
      titlePage.KnowsChild "page" "author" := by
  obtain ⟨hoccurs, hunwarned⟩ := isAllowed_iff_occurs .new yields_frontMatter
  obtain ⟨hallowed, hknown⟩ := hunwarned rfl
  refine ⟨⟨.new, yields_frontMatter, rfl⟩, fun x => ⟨hoccurs x, hallowed x⟩, ?_⟩
  have hauthor : (Pattern.ref "front").Occurs frontMatter.definitions (.element "author") := by
    rw [Pattern.occurs_ref get?_frontMatter, titleAndAuthor, Pattern.occurs_interleave]
    exact ⟨_, List.mem_cons_of_mem _ List.mem_cons_self, .block List.mem_cons_self (.token rfl)⟩
  exact hknown titlePage "page" _ rfl rfl "author" hauthor

end TreeGrammar
