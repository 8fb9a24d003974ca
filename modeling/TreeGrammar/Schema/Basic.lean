/-
Schemas.

A schema is what a grammar compiles to: a rule for each declared element, with its kind,
its attributes and the expression that its children must match. It is what documents are
validated against.
-/
import TreeGrammar.Content.Insertion
import TreeGrammar.Markup.Slot
import TreeGrammar.Schema.Kind

set_option autoImplicit false

namespace TreeGrammar

/-- The **rule** for an element. -/
structure ElementRule where
  /-- The tag. -/
  tag : String
  /-- The kind, declared or implied. -/
  kind : ElementKind
  /-- The attributes it may have, each once. -/
  attributes : List String
  /-- What its children must match. -/
  content : Expression

namespace ElementRule

/-- The same rule with another tie-break. -/
def withTieBreak (tieBreak : TieBreak) (r : ElementRule) : ElementRule :=
  { r with content := r.content.withTieBreak tieBreak }

/-- Whether an attribute is declared. -/
def hasAttribute (r : ElementRule) (name : String) : Bool := decide (name ∈ r.attributes)

/-- Whether a child of the given name, or text under its reserved name, occurs anywhere
in the content. -/
def isAllowed (r : ElementRule) (name : String) : Bool := r.content.isAllowed (Token.ofName name)

/-- The names of the elements that occur anywhere in the content. -/
def childNames (r : ElementRule) : List String :=
  r.content.allowedTokens.filterMap Token.elementName?

/-- The slots of children that count for an insertion: blank text does not, unless the
content takes text. -/
def keptSlots (r : ElementRule) (children : List Node) : List Slot :=
  (Slot.ofNodes children).filter fun slot => r.content.isTextAllowed || !slot.blank

/-- The index of a child list that a boundary between kept slots stands for. From the
first side it is as low as possible, from the last side as high as possible; **never
inside a run** of text. -/
def indexOfBoundary (slots : List Slot) (length : Nat) (side : Side) (boundary : Nat) : Nat :=
  match side with
  | .first =>
      match boundary with
      | 0 => 0
      | before + 1 => (slots[before]?).elim length fun slot => slot.last + 1
  | .last => (slots[boundary]?).elim length Slot.index

/-- The index at which a child can be **inserted** so that the content is complete, the
first one from a side. -/
def insertion? (r : ElementRule) (children : List Node) (name : String) (side : Side) :
    Option Nat :=
  let slots := r.keptSlots children
  (r.content.insertion? (slots.map Slot.token) (Token.ofName name) side).map
    (indexOfBoundary slots children.length side)

end ElementRule

/-- A **compiled document type**. -/
structure Schema where
  /-- The rules, in the order of their declarations. -/
  elements : OrderedTable String ElementRule := .empty
  /-- The element that a document starts with. -/
  start : Option String := none
  /-- What was ambiguous in the grammar. -/
  warnings : List Warning := []
  /-- The bounds for validation. -/
  limits : Limits := .standard

namespace Schema

/-- The same schema with other bounds. -/
def withLimits (limits : Limits) (s : Schema) : Schema := { s with limits }

/-- The same schema with another tie-break in every rule. -/
def withTieBreak (tieBreak : TieBreak) (s : Schema) : Schema :=
  { s with elements := s.elements.mapValues fun _ r => r.withTieBreak tieBreak }

/-- The rule for a tag. -/
def rule? (s : Schema) (tag : String) : Option ElementRule := s.elements.get? tag

/-- The rule for a tag that must be declared. -/
def rule (s : Schema) (tag : String) : Except Failure ElementRule :=
  match s.rule? tag with
  | some r => .ok r
  | none => .error (.name (.undeclared tag))

/-- The rules, in the order of their declarations. -/
def rules (s : Schema) : List ElementRule := s.elements.values

/-- The declared tags, in order. -/
def tags (s : Schema) : List String := s.elements.keys

/-- Whether a tag is declared. -/
def declares (s : Schema) (tag : String) : Bool := s.elements.contains tag

/-- The rule for the start element. -/
def startRule? (s : Schema) : Option ElementRule := s.start.bind s.rule?

end Schema

end TreeGrammar
