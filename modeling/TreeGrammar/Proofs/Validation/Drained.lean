/-
Going through the children agrees with reviewing them at once.

A child cursor goes through nodes, a review through slots. A node without a slot changes
nothing but the position, and a node with one is taken the way a review takes the slot;
so once all children are handed out, a cursor has found what a review finds. A
validator's walk reviews every element that it goes into: what it says about the
children of an element is what a cursor over them says, with the path of the element
written in.
-/
import TreeGrammar.Proofs.Markup.Slot
import TreeGrammar.Proofs.Schema.RoundTrip
import TreeGrammar.Proofs.Validation.Verdict
import TreeGrammar.Validation.ChildCursor

set_option autoImplicit false

namespace TreeGrammar

/-! ## One child -/

namespace ChildCursor

variable {c : ChildCursor} {n : Node} {slot : Slot}

/-- The cursor moved on by one child, to a progress and violations. -/
def moved (c : ChildCursor) (p : Progress) (errors : List Violation) : ChildCursor :=
  { c with position := c.position + 1, history := c.snapshot :: c.history, progress := p, errors :=
    errors }

@[simp] theorem rule_moved (p : Progress) (errors : List Violation) :
    (c.moved p errors).rule = c.rule := rfl

@[simp] theorem progress_moved (p : Progress) (errors : List Violation) :
    (c.moved p errors).progress = p := rfl

@[simp] theorem errors_moved (p : Progress) (errors : List Violation) :
    (c.moved p errors).errors = errors := rfl

/-- A child without a slot of its own is handed out, and only the position moves. -/
theorem take_bare : c.take (n, none) = (⟨n, false⟩, c.moved c.progress c.errors) := rfl

/-- A child whose token is taken is handed out, and the progress moves with it. -/
theorem take_of_some {next : Cursor}
    (h : c.rule.content.advance c.progress.cursor slot.token = some next) :
    c.take (n, some slot) = (⟨n, false⟩, c.moved
      { c.progress with
        cursor := next
        trace := c.progress.trace ++ [slot.token]
        offered := c.progress.offered + 1 } c.errors) := by
  simp only [take, Expression.offer, h]
  rfl

/-- Blank text that is not taken is handed out as if it were a comment. The progress
stays where it was. -/
theorem take_of_blank (h : c.rule.content.advance c.progress.cursor slot.token = none)
    (hblank : slot.blank = true) :
    c.take (n, some slot) = (⟨n, false⟩, c.moved c.progress c.errors) := by
  simp only [take, Expression.offer, h, hblank, if_true]
  rfl

/-- Any other child is handed out **with its markup in a comment**, and is recorded as a
violation. The cursor in the content stays. -/
theorem take_of_none (h : c.rule.content.advance c.progress.cursor slot.token = none)
    (hblank : slot.blank = false) : c.take (n, some slot) = (⟨n.defused, true⟩, c.moved
      { c.progress with
        offered := c.progress.offered + 1
        errors := c.progress.errors ++ [c.rule.content.rejection c.progress slot.token] }
      (c.errors ++ [c.rule.locate slot (c.rule.content.rejection c.progress slot.token)])) := by
  simp only [take, Expression.offer, h, hblank, Bool.false_eq_true, if_false]
  rfl

/-! ## All children -/

/-- What is found by taking children and ending is what **a review of their slots**
finds. The induction is on the children; each case is one equation of `take` against the
equation of a review for the same slot. -/
theorem errors_takeAll (c : ChildCursor) (items : List (Node × Option Slot)) :
    (c.takeAll items).2.errors ++ (c.takeAll items).2.ending.toList =
      c.errors ++ c.rule.reviewFrom c.progress (items.filterMap Prod.snd) := by
  induction items generalizing c with
  | nil => rfl
  | cons item rest ih =>
      obtain ⟨n, start⟩ := item
      have hstep : (c.takeAll ((n, start) :: rest)).2 = ((c.take (n, start)).2.takeAll rest).2 :=
        rfl
      rw [hstep, ih]
      cases start with
      | none =>
          rw [take_bare, rule_moved, progress_moved, errors_moved]
          rfl
      | some slot =>
          have hslots :
              ((n, some slot) :: rest).filterMap Prod.snd = slot :: rest.filterMap Prod.snd := rfl
          rw [hslots]
          -- the three ways of taking a child are the three equations of a review
          cases hadvance : c.rule.content.advance c.progress.cursor slot.token with
          | some next =>
              rw [take_of_some hadvance, ElementRule.reviewFrom_cons_of_some hadvance, rule_moved,
                progress_moved, errors_moved]
          | none =>
              by_cases hblank : slot.blank = true
              · rw [take_of_blank hadvance hblank, ElementRule.reviewFrom_cons_of_blank hadvance
                  hblank, rule_moved, progress_moved, errors_moved]
              · have hblank : slot.blank = false := by simpa using hblank
                rw [take_of_none hadvance hblank, ElementRule.reviewFrom_cons_of_none hadvance
                  hblank, rule_moved, progress_moved, errors_moved, List.append_assoc,
                  List.singleton_append]

/-- Nodes are paired up with **the slots that start at them**, if from their index on
these are the slots to look in. -/
theorem pairUp_eq {slots : List Slot} {isOpen : Bool} {index : Nat} {ns : List Node}
    (h : ∀ j, index ≤ j → slots.find? (fun slot => slot.index == j) =
      ((Slot.starts isOpen index ns).filterMap id).find? fun slot => slot.index == j) :
    pairUp slots index ns = ns.zip (Slot.starts isOpen index ns) := by
  induction ns generalizing isOpen index with
  | nil => rfl
  | cons n rest ih =>
      -- what is looked for at this index is not among the slots of later nodes, and the
      -- other way round
      have hlater (isOpen : Bool) :
          ((Slot.starts isOpen (index + 1) rest).filterMap id).find?
            (fun slot => slot.index == index) = none := by
        rw [List.find?_eq_none]
        intro slot hslot
        have hmem : some slot ∈ Slot.starts isOpen (index + 1) rest := by simpa using hslot
        have hle := Slot.le_index_of_mem_starts hmem
        simp only [beq_iff_eq]
        omega
      have hcons {start : Option Slot} {isOpen : Bool} (hindex : ∀ slot ∈ start, slot.index = index)
          (h : ∀ j, index ≤ j → slots.find? (fun slot => slot.index == j) =
            ((start :: Slot.starts isOpen (index + 1) rest).filterMap id).find?
              fun slot => slot.index == j) :
          pairUp slots index (n :: rest) = (n :: rest).zip
            (start :: Slot.starts isOpen (index + 1) rest) := by
        have hhere : slots.find? (fun slot => slot.index == index) = start := by
          rw [h index (Nat.le_refl index)]
          cases start with
          | none => exact hlater isOpen
          | some slot => simp [hindex slot rfl]
        rw [pairUp, hhere, List.zip_cons_cons]
        congr 1
        apply ih
        intro j hj
        rw [h j (by omega)]
        cases start with
        | none => rfl
        | some slot =>
            have hne : (slot.index == j) = false := by
              rw [hindex slot rfl, beq_eq_false_iff_ne]
              omega
            simp [hne]
      cases n with
      | comment s => exact hcons (by simp) h
      | element tag attributes children =>
          apply hcons _ h
          intro slot hslot
          cases hslot
          rfl
      | text s =>
          apply hcons _ h
          intro slot hslot
          cases isOpen with
          | true => cases hslot
          | false =>
              cases hslot
              rw [Slot.index_closeRun]
              rfl

/-- The children of a cursor, each with the slot that starts at it. -/
theorem items_ofChildren (r : ElementRule) (children : List Node) :
    (ofChildren r children).items = children.zip (Slot.starts false 0 children) := by
  apply pairUp_eq
  intro j _
  rw [Slot.ofNodes_eq]

/-- Once all children are handed out, a cursor has found **what a review finds**. The
slots of the children are those that a review goes through. -/
theorem allErrors_ofChildren (r : ElementRule) (children : List Node) :
    (ofChildren r children).allErrors = r.review children := by
  have hitems : (ofChildren r children).items.filterMap Prod.snd = Slot.ofNodes children := by
    have hlength : (Slot.starts false 0 children).length ≤ children.length := by
      rw [Slot.length_starts]
    calc (ofChildren r children).items.filterMap Prod.snd
        = ((children.zip (Slot.starts false 0 children)).map Prod.snd).filterMap id := by
          rw [items_ofChildren, List.filterMap_map]
          rfl
      _ = Slot.ofNodes children := by rw [List.map_snd_zip hlength, Slot.ofNodes_eq]
  have herrors := errors_takeAll (ofChildren r children) (ofChildren r children).items
  rw [hitems] at herrors
  exact herrors

end ChildCursor

/-! ## What a walk says about children -/

/-- A violation of attributes is not about the children. -/
theorem filter_isOfContent_reviewAttributes (r : ElementRule) (e : Element) :
    (Scope.reviewAttributes r e).filter (fun v => v.kind.isOfContent) = [] := by
  rw [List.filter_eq_nil_iff]
  intro v hv
  obtain ⟨name, -, rfl⟩ := List.mem_map.mp hv
  exact Bool.false_ne_true

/-- At an element that it goes into, a walk finds about the children what **a review**
finds. What else it finds is about attributes. -/
theorem Scope.filter_isOfContent_violations {scope : Scope} {v : Visit} {r : ElementRule}
    (hdepth : v.depth ≤ scope.limits.documentDepth)
    (hrule : scope.schema.rule? v.element.tag = some r) :
    (scope.inspect v).violations.filter (fun x => x.kind.isOfContent) =
      (r.review v.element.children).map v.locate := by
  have hattributes : (if scope.mode = .strict then reviewAttributes r v.element else []).filter
      (fun x => x.kind.isOfContent) = [] := by
    split
    · exact filter_isOfContent_reviewAttributes r v.element
    · rfl
  have hreview : (r.review v.element.children).filter (fun x => x.kind.isOfContent) =
      r.review v.element.children :=
    List.filter_eq_self.mpr fun x hx => ElementRule.isOfContent_of_mem_review hx
  calc (scope.inspect v).violations.filter (fun x => x.kind.isOfContent)
      = ((scope.examine v).1.filter fun x => x.kind.isOfContent).map v.locate := by
        rw [violations_inspect, List.filter_map]
        rfl
    _ = (r.review v.element.children).map v.locate := by
        rw [examine_of_rule hdepth hrule, List.filter_append, hattributes, hreview, List.nil_append]

/-- Under the rule of its tag, a review has named the element already, and **only the
path** is written in. -/
theorem Visit.map_locate_review {v : Visit} {r : ElementRule} (htag : r.tag = v.element.tag)
    {children : List Node} : (r.review children).map v.locate = (r.review children).map
    fun x => { x with path := some v.path } := by
  refine List.map_congr_left fun x hx => ?_
  have helement := (ElementRule.mem_reviewFrom hx).1.1
  rw [htag] at helement
  rw [Visit.locate, ← helement]

/-- What a review says, with the place of it: each child it names **begins at** the
index it gives. The index is that of the slot which was rejected. -/
theorem ElementRule.beginsAt_of_mem_review {r : ElementRule} {children : List Node} {v : Violation}
    (h : v ∈ r.review children) (hkind : v.kind.isStructural = true) :
    ∃ t index, v.token = some t ∧ v.index = some index ∧ Slot.BeginsAt children t index := by
  rcases (mem_reviewFrom h).2 with ⟨-, slot, hslot, hindex, htoken⟩ | hincomplete
  · exact ⟨slot.token, slot.index, htoken, hindex, Slot.beginsAt_of_mem_ofNodes hslot⟩
  · rw [hincomplete] at hkind
    cases hkind

/-- In a proper schema the rule under a tag knows its own tag. -/
theorem Schema.Proper.tag_eq {s : Schema} (hs : s.Proper) {tag : String} {r : ElementRule}
    (h : s.rule? tag = some r) : r.tag = tag :=
  hs.tag (tag, r) ((OrderedTable.mem_entries_iff _ _ _).mpr h)

/-- **Batch and child by child agree.** A tree has the violations that are found on a
walk, and a document may have one of its root before them; the walk inspects every
element that is not too deep and has only declared elements above it. At each declared
element that is not too deep, the violations about its children are those that a cursor
over the children has found at the end, in the same order, with the path written in.
Each of these has the element's tag, and one that names a child has the index at which
that child stands. -/
theorem content_violations_eq_allErrors {s : Schema} (hs : s.Obtained) {mode : ValidationMode}
    (hmode : mode ≠ .skip) (limits : Limits) (root : Element) :
    let v : Validator := ⟨s, mode, limits⟩
    let found := v.scope.walk [Visit.root root]
    v.validate root = found.flatMap Inspection.violations ∧
      v.validateDocument root = (v.ledgerForRoot root.tag).violations ++ v.validate root ∧
      (∀ depth e, root.HasThrough v.scope.Declared depth e → depth ≤ limits.documentDepth →
        ∃ i ∈ found, i.visit.element = e ∧ i.visit.depth = depth) ∧
      ∀ i ∈ found, i.visit.depth ≤ limits.documentDepth →
      ∀ c, s.childCursor? i.visit.element = some c →
        i.violations.filter (fun x => x.kind.isOfContent) =
            c.allErrors.map (fun x => { x with path := some i.visit.path }) ∧
          ∀ x ∈ c.allErrors, x.element = some i.visit.element.tag ∧ x.path = none ∧
            (x.kind.isStructural = true → ∃ t index, x.token = some t ∧ x.index = some index ∧
              Slot.BeginsAt i.visit.element.children t index) := by
  intro v found
  have hvalidate : v.validate root = found.flatMap Inspection.violations := v.validate_eq hmode root
  have hdocument : v.validateDocument root = (v.ledgerForRoot root.tag).violations ++
      v.validate root := by
    rw [hvalidate, v.validateDocument_eq hmode]
  refine ⟨hvalidate, hdocument, fun depth e hhas hdepth => ?_, fun i hi hdepth c hc => ?_⟩
  · obtain ⟨w, hreach, helement, hwdepth⟩ :=
      Scope.reached_of_hasThrough hhas (Nat.le_succ_of_le hdepth)
    exact ⟨_, Scope.mem_walk_iff.mpr ⟨_, List.mem_singleton_self _, w, hreach, rfl⟩,
      helement, hwdepth⟩
  -- at a visited element, both sides are the review of its children
  · obtain ⟨-, -, w, -, rfl⟩ := Scope.mem_walk_iff.mp hi
    obtain ⟨r, hrule, rfl⟩ := Option.map_eq_some_iff.mp hc
    rw [ChildCursor.allErrors_ofChildren]
    refine ⟨(Scope.filter_isOfContent_violations hdepth hrule).trans ?_, fun x hx => ?_⟩
    · exact Visit.map_locate_review (hs.proper.tag_eq hrule)
    obtain ⟨⟨helement, hpath⟩, -⟩ := ElementRule.mem_reviewFrom hx
    rw [hs.proper.tag_eq hrule] at helement
    exact ⟨helement, hpath, ElementRule.beginsAt_of_mem_review hx⟩

/-- A list with an item, after text that a comment interrupts. -/
def strayTextList : Element where
  tag := "list"
  children := [.text "a", .comment "b", .text "c", .element "item" .empty []]

/-- The text is named once, at its first node, by the walk and by the cursor. -/
theorem content_violations_strayTextList :
    ∃ v : Validator, ∃ i : Inspection, ∃ c : ChildCursor,
      v.validate strayTextList = (v.scope.walk [Visit.root strayTextList]).flatMap
        Inspection.violations ∧
      i ∈ v.scope.walk [Visit.root strayTextList] ∧ i.visit.element = strayTextList ∧
      c.allErrors.map (fun x => (x.token, x.index)) = [(some .text, some 0)] ∧
      i.violations.filter (fun x => x.kind.isOfContent) =
        c.allErrors.map (fun x => { x with path := some i.visit.path }) := by
  have hread : Compact.decode Compact.listing = .ok Compact.listingSchema := rfl
  have hmode : ValidationMode.strict ≠ .skip := by decide
  obtain ⟨hvalidate, -, hvisited, hagree⟩ :=
    content_violations_eq_allErrors (.decoded hread) hmode .standard strayTextList
  obtain ⟨i, hi, helement, hdepth⟩ := hvisited 1 strayTextList .root (by decide)
  obtain ⟨c, hc⟩ : ∃ c, Compact.listingSchema.childCursor? strayTextList = some c := ⟨_, rfl⟩
  refine ⟨⟨Compact.listingSchema, .strict, .standard⟩, i, c, hvalidate, hi, helement, ?_, ?_⟩
  · cases hc
    rfl
  · exact (hagree i hi (by rw [hdepth]; decide) c (by rw [helement]; exact hc)).1

end TreeGrammar
