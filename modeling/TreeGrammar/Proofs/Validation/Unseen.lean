/-
Edits that validation does not see.

Comments may come and go, text may be cut and joined, and layout may come and go where a
content takes no text. What a review sees of the children is the marks of the slots that
are kept, and none of these edits changes them; only the indexes of nodes move. The
elements below stay what they were, but for edits of their own children, and so do their
paths. So a walk before an edit and a walk after it go side by side and find the same at
each visit, indexes aside.
-/
import TreeGrammar.Proofs.Schema.Insertion
import TreeGrammar.Proofs.Validation.Verdict

set_option autoImplicit false

namespace TreeGrammar

/-- The violation **but for its index**. -/
def Violation.withoutIndex (v : Violation) : Violation := { v with index := none }

/-! ## Edits -/

namespace Schema

/-- An **edit of layout** among the children of an element with a tag. Comments are put
in anywhere, text is cut in two anywhere, and blank text is put in where the tag is
declared and its content takes no text; and so on inside a child. -/
inductive EditsChildren (s : Schema) : String → List Node → List Node → Prop
  | comment {tag : String} {before after : List Node} (note : String) :
      EditsChildren s tag (before ++ after) (before ++ .comment note :: after)
  | split {tag : String} {before after : List Node} (x y : String) :
      EditsChildren s tag (before ++ .text (x ++ y) :: after)
        (before ++ .text x :: .text y :: after)
  | blank {tag : String} {r : ElementRule} {before after : List Node} {x : String}
      (hrule : s.rule? tag = some r) (hnotext : r.content.isTextAllowed = false)
      (hblank : isBlank x = true) :
      EditsChildren s tag (before ++ after) (before ++ .text x :: after)
  | inside {tag inner : String} {attributes : Attributes}
      {before after children children' : List Node} (h : EditsChildren s inner children children') :
      EditsChildren s tag (before ++ .element inner attributes children :: after)
        (before ++ .element inner attributes children' :: after)

/-- An edit of layout somewhere in the tree of an element. -/
structure Edits (s : Schema) (e e' : Element) : Prop where
  tag : e.tag = e'.tag
  attributes : e.attributes = e'.attributes
  children : s.EditsChildren e.tag e.children e'.children

end Schema

/-! ## Reviews -/

namespace ElementRule

open Slot

variable {r : ElementRule} {p : Progress} {slots slots' : List Slot}
  {children children' : List Node}

/-- A review sees **no more than the marks**, but for the indexes that it gives. By
induction on the slots. -/
theorem map_withoutIndex_reviewFrom (h : slots.map mark = slots'.map mark) :
    (r.reviewFrom p slots).map Violation.withoutIndex = (r.reviewFrom p slots').map
      Violation.withoutIndex := by
  induction slots generalizing p slots' with
  | nil =>
      cases List.map_eq_nil_iff.mp h.symm
      rfl
  | cons slot rest ih =>
      obtain ⟨slot', rest', rfl, hslot, hrest⟩ := List.map_eq_cons_iff.mp h.symm
      have htoken : slot'.token = slot.token := congrArg Prod.fst hslot
      have hblank : slot'.blank = slot.blank := congrArg Prod.snd hslot
      -- the same token is taken or not, so both reviews go on in the same way
      cases hadvance : r.content.advance p.cursor slot.token with
      | some next =>
          have hadvance' : r.content.advance p.cursor slot'.token = some next := by
            rw [htoken, hadvance]
          rw [reviewFrom_cons_of_some hadvance, reviewFrom_cons_of_some hadvance', htoken]
          exact ih hrest.symm
      | none =>
          have hadvance' : r.content.advance p.cursor slot'.token = none := by rw [htoken, hadvance]
          cases hpassed : slot.blank with
          | true =>
              rw [reviewFrom_cons_of_blank hadvance hpassed, reviewFrom_cons_of_blank hadvance'
                (hblank.trans hpassed)]
              exact ih hrest.symm
          | false =>
              rw [reviewFrom_cons_of_none hadvance hpassed, reviewFrom_cons_of_none hadvance'
                (hblank.trans hpassed), htoken, List.map_cons, List.map_cons, ih hrest.symm]
              rfl

/-- What is not kept is blank text in a content without text, and a review **passes
over** it. -/
theorem reviewFrom_filter_keeps (h : r.content.Inside p.cursor)
    (htext : ∀ slot ∈ slots, slot.blank = true → slot.token = .text) :
    r.reviewFrom p (slots.filter r.keeps) = r.reviewFrom p slots := by
  induction slots generalizing p with
  | nil => rfl
  | cons slot rest ih =>
      obtain ⟨hslot, hrest⟩ := List.forall_mem_cons.mp htext
      by_cases hkept : r.keeps slot = true
      · rw [List.filter_cons_of_pos hkept]
        cases hadvance : r.content.advance p.cursor slot.token with
        | some next =>
            rw [reviewFrom_cons_of_some hadvance, reviewFrom_cons_of_some hadvance]
            exact ih (h.advance hadvance).1 hrest
        | none =>
            cases hblank : slot.blank with
            | true =>
                rw [reviewFrom_cons_of_blank hadvance hblank,
                  reviewFrom_cons_of_blank hadvance hblank]
                exact ih h hrest
            | false =>
                rw [reviewFrom_cons_of_none hadvance hblank,
                  reviewFrom_cons_of_none hadvance hblank]
                exact congrArg (List.cons _) (ih h hrest)
      -- what is dropped is blank text, which the content does not take anywhere
      · obtain ⟨hnotext, hblank⟩ : r.content.isTextAllowed = false ∧ slot.blank = true := by
          simpa [keeps] using hkept
        have hadvance : r.content.advance p.cursor slot.token = none := by
          rw [hslot hblank]
          exact h.advance_eq_none hnotext
        rw [List.filter_cons_of_neg hkept, reviewFrom_cons_of_blank hadvance hblank]
        exact ih h hrest

theorem map_mark_keptSlots (r : ElementRule) (children : List Node) :
    (r.keptSlots children).map mark =
      ((ofNodes children).map mark).filter fun m => r.content.isTextAllowed || !m.2 := by
  rw [List.filter_map]
  rfl

/-- Children whose kept slots have the same marks have **the same violations**, indexes
aside. The slots that are not kept can be left out on either side. -/
theorem map_withoutIndex_review
    (h : (r.keptSlots children).map mark = (r.keptSlots children').map mark) :
    (r.review children).map Violation.withoutIndex =
      (r.review children').map Violation.withoutIndex := by
  have hkept (children : List Node) :
      r.reviewFrom r.content.begin (r.keptSlots children) = r.review children :=
    reviewFrom_filter_keeps r.content.inside_initial fun _ hslot => token_of_mem_ofNodes hslot
  rw [← hkept, ← hkept]
  exact map_withoutIndex_reviewFrom h

end ElementRule

/-- An edit of layout changes **no mark of a slot that is kept**. One case
for each edit. -/
theorem Schema.EditsChildren.marks {s : Schema} {tag : String} {children children' : List Node}
    {r : ElementRule} (h : s.EditsChildren tag children children') (hrule : s.rule? tag = some r) :
    (r.keptSlots children).map Slot.mark = (r.keptSlots children').map Slot.mark := by
  rw [r.map_mark_keptSlots, r.map_mark_keptSlots]
  cases h with
  | comment note => rw [Slot.marks_insert_comment]
  | split x y => rw [Slot.marks_split_text]
  | blank hrule' hnotext hblank =>
      -- blank runs are not kept where the content takes no text
      cases hrule.symm.trans hrule'
      simp only [hnotext, Bool.false_or]
      exact (Slot.marks_insert_blank _ _ hblank).symm
  | inside _ => rw [Slot.ofNodes_insert_element, Slot.ofNodes_insert_element]

/-! ## Visits -/

/-- The visits are of one place, and the element there is the same **but for an edit
of layout**. -/
structure Visit.Edited (s : Schema) (v w : Visit) : Prop where
  path : v.path = w.path
  depth : v.depth = w.depth
  element : v.element = w.element ∨ s.Edits v.element w.element

namespace Visit

variable {s : Schema} {v w : Visit}

theorem Edited.refl (s : Schema) (v : Visit) : v.Edited s v := ⟨rfl, rfl, .inl rfl⟩

/-- Edits below an element leave its tag as it is. -/
theorem Edited.tag_eq (h : v.Edited s w) : v.element.tag = w.element.tag := by
  rcases h.element with hsame | hedit
  · rw [hsame]
  · exact hedit.tag

theorem Edited.attributes_eq (h : v.Edited s w) : v.element.attributes = w.element.attributes := by
  rcases h.element with hsame | hedit
  · rw [hsame]
  · exact hedit.attributes

theorem Edited.locate_eq (h : v.Edited s w) : v.locate = w.locate := by
  funext x
  rw [locate, locate, h.path, h.tag_eq]

/-- A place is written into violations **with or without** their indexes. -/
theorem map_withoutIndex_locate (v : Visit) (xs : List Violation) :
    (xs.map v.locate).map Violation.withoutIndex =
      (xs.map Violation.withoutIndex).map v.locate := by
  rw [List.map_map, List.map_map]
  rfl

/-- Where the nodes behind a point are visited alike, so are all nodes **with what
stands before it**. The tags of what stands before decide about the places of what
comes behind. -/
theorem forall₂_below_append {path : String} {depth : Nat} {ns ns' : List Node}
    (h : ∀ tags, List.Forall₂ (Edited s) (below path depth tags ns) (below path depth tags ns'))
    (tags : List String) (before : List Node) :
    List.Forall₂ (Edited s) (below path depth tags (before ++ ns))
      (below path depth tags (before ++ ns')) := by
  induction before generalizing tags with
  | nil => exact h tags
  | cons n rest ih =>
      cases n with
      | text x => exact ih tags
      | comment x => exact ih tags
      | element tag attributes children => exact .cons (.refl s _) (ih (tag :: tags))

/-- An edit of layout leaves **the places of elements** as they are. They are counted
among elements, and text and comments are no elements. -/
theorem forall₂_below_of_edits {tag : String} {ns ns' : List Node} (h : s.EditsChildren tag ns ns')
    (path : String) (depth : Nat) : List.Forall₂ (Edited s) (below path depth [] ns)
    (below path depth [] ns') := by
  have hsame (visits : List Visit) : List.Forall₂ (Edited s) visits visits :=
    List.forall₂_same.mpr fun v _ => .refl s v
  cases h with
  | comment _ | split _ _ | blank _ _ _ =>
      -- what comes or goes is no element, so behind the edit the visits are the very same
      refine forall₂_below_append (fun tags => ?_) [] _
      exact hsame _
  | inside hinner =>
      refine forall₂_below_append (fun tags => ?_) [] _
      exact .cons ⟨rfl, rfl, .inr ⟨rfl, rfl, hinner⟩⟩ (hsame _)

/-- What was edited has **as many child elements as before**, and each of them
was edited at most. At the edited element none of them was touched, above it one
of them was. -/
theorem Edited.children (h : v.Edited s w) : List.Forall₂ (Edited s) v.children w.children := by
  unfold Visit.children
  rw [← h.path, ← h.depth]
  rcases h.element with hsame | hedit
  · rw [hsame]
    exact List.forall₂_same.mpr fun v _ => .refl s v
  · exact forall₂_below_of_edits hedit.children _ _

end Visit

/-! ## Walks -/

namespace Scope

variable {scope : Scope} {v w : Visit}

/-- Attributes are reviewed by the tag and the attributes only, children by
their marks. -/
theorem examine_edited (h : v.Edited scope.schema w) :
    (scope.examine v).1.map Violation.withoutIndex =
      (scope.examine w).1.map Violation.withoutIndex ∧ (scope.examine v).2 =
        (scope.examine w).2 := by
  rcases Nat.lt_or_ge scope.limits.documentDepth v.depth with hdeep | hdepth
  · rw [examine_of_tooDeep hdeep, examine_of_tooDeep (h.depth ▸ hdeep), h.tag_eq]
    exact ⟨rfl, rfl⟩
  · have hdepth' : w.depth ≤ scope.limits.documentDepth := h.depth ▸ hdepth
    cases hrule : scope.schema.rule? v.element.tag with
    | none =>
        rw [examine_of_undeclared hdepth hrule, examine_of_undeclared hdepth' (h.tag_eq ▸ hrule),
          h.tag_eq]
        exact ⟨rfl, rfl⟩
    | some r =>
        -- an edit of layout touches no attribute, and no mark of a slot that is kept
        have hattributes : reviewAttributes r v.element = reviewAttributes r w.element := by
          unfold reviewAttributes
          rw [h.attributes_eq, h.tag_eq]
        have hreview : (r.review v.element.children).map Violation.withoutIndex =
            (r.review w.element.children).map Violation.withoutIndex := by
          rcases h.element with hsame | hedit
          · rw [hsame]
          · exact ElementRule.map_withoutIndex_review (hedit.children.marks hrule)
        rw [examine_of_rule hdepth hrule, examine_of_rule hdepth' (h.tag_eq ▸ hrule), hattributes,
          List.map_append, List.map_append, hreview]
        exact ⟨rfl, rfl⟩

/-- The same is found at an element before and after, but for the indices: comments and
layout that come in move the others. -/
theorem inspect_edited (h : v.Edited scope.schema w) :
    (scope.inspect v).violations.map Violation.withoutIndex =
      (scope.inspect w).violations.map Violation.withoutIndex := by
  rw [violations_inspect, violations_inspect, Visit.map_withoutIndex_locate,
    Visit.map_withoutIndex_locate, (examine_edited h).1, h.locate_eq]

/-- Walks before and after an edit of layout **stay in step**, and find the same but for
indexes. One visit on either side is all that has to be compared. -/
theorem walk_edited {level level' : List Visit}
    (h : List.Forall₂ (Visit.Edited scope.schema) level level') :
    List.Forall₂
      (fun i j => i.violations.map Violation.withoutIndex = j.violations.map Violation.withoutIndex)
      (scope.walk level) (scope.walk level') := by
  refine forall₂_walk (fun v w hvw => inspect_edited hvw) (fun v w hvw => ?_) h
  unfold Inspection.next
  rw [descends_inspect, descends_inspect, (examine_edited hvw).2]
  split
  · exact hvw.children
  · exact .nil

end Scope

/-! ## Whole trees -/

/-- **One edit** of layout changes nothing in what is found but indexes. The walk before
it and the walk after it are compared visit by visit. -/
theorem Validator.map_withoutIndex_validate_of_edits {v : Validator} {root root' : Element}
    (h : v.schema.Edits root root') :
    (v.validate root).map Violation.withoutIndex =
      (v.validate root').map Violation.withoutIndex := by
  have hroot : (Visit.root root).Edited v.schema (Visit.root root') := by
    refine ⟨?_, rfl, .inr h⟩
    show "/" ++ root.tag = "/" ++ root'.tag
    rw [h.tag]
  have hfound : List.Forall₂
      (fun i j => i.violations.map Violation.withoutIndex = j.violations.map Violation.withoutIndex)
      (v.ledger.found v.schema root) (v.ledger.found v.schema root') := by
    unfold Ledger.found
    split
    · exact .nil
    · exact Scope.walk_edited (.cons hroot .nil)
  rw [v.validate_eq_found, v.validate_eq_found, List.map_flatMap, List.map_flatMap,
    ← List.forall₂_eq_eq_eq]
  refine List.rel_flatMap hfound fun i j hij => ?_
  rw [List.forall₂_eq_eq_eq]
  exact hij

/-- **Comments and layout are not seen.** Whatever the schema, the mode and the
bounds, trees that edits of layout lead between, made or undone, both have violations
or neither has, and they have the same violations in the same order, but for the
indexes in them. -/
theorem validate_of_eqvGen_edits (v : Validator) {root root' : Element}
    (h : Relation.EqvGen v.schema.Edits root root') :
    (v.validate root = [] ↔ v.validate root' = []) ∧
      (v.validate root).map Violation.withoutIndex =
        (v.validate root').map Violation.withoutIndex := by
  have hsame :
      (v.validate root).map Violation.withoutIndex =
        (v.validate root').map Violation.withoutIndex := by
    induction h with
    | rel _ _ hedit => exact Validator.map_withoutIndex_validate_of_edits hedit
    | refl => rfl
    | symm _ _ _ ih => exact ih.symm
    | trans _ _ _ _ _ ih ih' => exact ih.trans ih'
  refine ⟨?_, hsame⟩
  rw [← List.map_eq_nil_iff (f := Violation.withoutIndex), hsame, List.map_eq_nil_iff]

/-- A list of an item, its text in one piece or in more, and of stray text. -/
def strayAfterItem (layout texts : List Node) (comments : List Node) : Element where
  tag := "list"
  children :=
    layout ++ .element "item" .empty (texts ++ [.element "note" .empty []]) ::
      comments ++ [.text "c"]

/-- With layout before the item, a comment behind it and its text cut in two around
another comment, the stray text is named as before, **at another index**. -/
theorem validate_strayAfterItem :
    let v : Validator := { schema := Compact.listingSchema }
    let plain := strayAfterItem [] [.text "ab"] []
    let laidOut := strayAfterItem [.text "\n "] [.text "a", .comment "d", .text "b"] [.comment "e"]
    Relation.EqvGen v.schema.Edits plain laidOut ∧
      (v.validate plain).map (fun x => (x.token, x.index)) = [(some .text, some 1), (none, none)] ∧
      (v.validate laidOut).map (fun x => (x.token, x.index)) =
        [(some .text, some 3), (none, none)] ∧
      (v.validate plain).map Violation.withoutIndex =
        (v.validate laidOut).map Violation.withoutIndex := by
  intro v plain laidOut
  have hcut : v.schema.Edits plain (strayAfterItem [] [.text "a", .text "b"] []) :=
    ⟨rfl, rfl, @Schema.EditsChildren.inside _ _ _ _ []
      [.text "c"] _ _ (@Schema.EditsChildren.split _ _ [] _ "a" "b")⟩
  have hnote : v.schema.Edits (strayAfterItem [] [.text "a", .text "b"] [])
      (strayAfterItem [] [.text "a", .comment "d", .text "b"] []) :=
    ⟨rfl, rfl, @Schema.EditsChildren.inside _ _ _ _ [] [.text "c"] _ _
      (@Schema.EditsChildren.comment _ _ [.text "a"] _ "d")⟩
  have hbehind : v.schema.Edits (strayAfterItem [] [.text "a", .comment "d", .text "b"] [])
      (strayAfterItem [] [.text "a", .comment "d", .text "b"] [.comment "e"]) :=
    ⟨rfl, rfl, @Schema.EditsChildren.comment _ _ [_] [.text "c"] "e"⟩
  have hlayout :
      v.schema.Edits (strayAfterItem [] [.text "a", .comment "d", .text "b"] [.comment "e"])
        laidOut :=
    ⟨rfl, rfl, @Schema.EditsChildren.blank _ _ _ [] _ _ rfl (by cbv) (by decide)⟩
  have hedits : Relation.EqvGen v.schema.Edits plain laidOut :=
    .trans _ _ _ (.rel _ _ hcut) <| .trans _ _ _ (.rel _ _ hnote) <|
      .trans _ _ _ (.rel _ _ hbehind) (.rel _ _ hlayout)
  refine ⟨hedits, ?_, ?_, (validate_of_eqvGen_edits v hedits).2⟩
  · cbv
  · cbv

end TreeGrammar
