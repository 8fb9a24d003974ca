/-
Going through the children of one element.

A cursor hands out the children one at a time while they are validated. A child that is
rejected is handed out as a comment with its markup inside, so that what is handed out
can always be used. The cursor can go back: it keeps a snapshot from before each child.
-/
import TreeGrammar.Markup.Writer
import TreeGrammar.Validation.Review

set_option autoImplicit false

namespace TreeGrammar

/-- What a cursor goes back to. -/
structure Snapshot where
  /-- The progress. -/
  progress : Progress
  /-- How many violations there were. -/
  errorCount : Nat
deriving DecidableEq, Repr

/-- A **cursor** over the children of an element. -/
structure ChildCursor where
  /-- The rule for the element. -/
  rule : ElementRule
  /-- The children, each with the slot that starts at it. -/
  items : List (Node × Option Slot)
  /-- The index of the next child. -/
  position : Nat := 0
  /-- The progress in the content. -/
  progress : Progress := rule.content.begin
  /-- The snapshots, the latest first. -/
  history : List Snapshot := []
  /-- The violations so far. -/
  errors : List Violation := []

/-- A child that is handed out. -/
structure Delivery where
  /-- The child, or the comment in its place. -/
  node : Node
  /-- Whether it is such a comment. -/
  replaced : Bool

namespace ChildCursor

/-- Nodes, the first of which has the given index, each with the slot that starts at it. -/
def pairUp (slots : List Slot) (index : Nat) : List Node → List (Node × Option Slot)
  | [] => []
  | n :: ns => (n, slots.find? fun slot => slot.index == index) :: pairUp slots (index + 1) ns

/-- A cursor before the first child. -/
def ofChildren (r : ElementRule) (children : List Node) : ChildCursor :=
  { rule := r, items := pairUp (Slot.ofNodes children) 0 children }

/-- A snapshot of the cursor. -/
def snapshot (c : ChildCursor) : Snapshot := ⟨c.progress, c.errors.length⟩

/-- Takes a child. A comment and the tail of a run of text are not offered to
the content. -/
def take (c : ChildCursor) (item : Node × Option Slot) : Delivery × ChildCursor :=
  let next := { c with position := c.position + 1, history := c.snapshot :: c.history }
  match item.2 with
  | none => (⟨item.1, false⟩, next)
  | some slot =>
      match c.rule.content.offer c.progress slot.token with
      | .accepted p => (⟨item.1, false⟩, { next with progress := p })
      | .rejected reason p =>
          if slot.blank then (⟨item.1, false⟩, next)
          else
            (⟨item.1.defused, true⟩,
              { next with progress := p, errors := c.errors ++ [c.rule.locate slot reason] })

/-- Hands out the **next** child, if there is one. -/
def next? (c : ChildCursor) : Option (Delivery × ChildCursor) := c.items[c.position]?.map c.take

/-- Goes **back** by one child, if one was handed out. -/
def back? (c : ChildCursor) : Option ChildCursor :=
  match c.history with
  | [] => none
  | s :: rest =>
      some { c with
        progress := s.progress
        errors := c.errors.take s.errorCount
        position := c.position - 1
        history := rest }

/-- The number of children that have not been handed out. -/
def remaining (c : ChildCursor) : Nat := c.items.length - c.position

/-- The violation of ending here, if the content may not. -/
def ending (c : ChildCursor) : Option Violation := c.rule.ending c.progress

/-- Takes children one after the other. -/
def takeAll (c : ChildCursor) : List (Node × Option Slot) → List Delivery × ChildCursor
  | [] => ([], c)
  | item :: rest =>
      let (delivery, c) := c.take item
      let (more, c) := c.takeAll rest
      (delivery :: more, c)

/-- Hands out **all** children that are left. -/
def rest (c : ChildCursor) : List Delivery × ChildCursor := c.takeAll (c.items.drop c.position)

/-- Every violation, once all children have been handed out. -/
def allErrors (c : ChildCursor) : List Violation :=
  let last := c.rest.2
  last.errors ++ last.ending.toList

end ChildCursor

/-- A cursor over an element's children, if the element is declared. -/
def Schema.childCursor? (s : Schema) (e : Element) : Option ChildCursor :=
  (s.rule? e.tag).map fun r => .ofChildren r e.children

end TreeGrammar
