/-
Trees of markup.

A document is a tree of elements, text and comments in document order; names keep their
prefixes, and the attributes of an element are in the order in which they were first
written.
-/
import TreeGrammar.Markup.Blank
import TreeGrammar.OrderedTable

set_option autoImplicit false

namespace TreeGrammar

/-- The attributes of an element: a value for each name. -/
abbrev Attributes := OrderedTable String String

/-- A **node**: a child of an element, or a whole document. -/
inductive Node where
  /-- An element with its tag, its attributes and its children. -/
  | element (tag : String) (attributes : Attributes) (children : List Node)
  /-- Character data. -/
  | text (s : String)
  /-- A comment. -/
  | comment (s : String)

instance : Inhabited Node := ⟨.text ""⟩

/-- An element by itself, such as the root of a document. -/
structure Element where
  /-- The tag, with its prefix if it has one. -/
  tag : String
  /-- The attributes. -/
  attributes : Attributes := .empty
  /-- The children. -/
  children : List Node := []

instance : Inhabited Element := ⟨{ tag := "" }⟩

/-- The element as a node. -/
def Element.node (e : Element) : Node := .element e.tag e.attributes e.children

namespace Node

/-- The element, if the node is one. -/
def element? : Node → Option Element
  | element tag attributes children => some ⟨tag, attributes, children⟩
  | _ => none

/-- Whether the node is blank text. -/
def isBlankText : Node → Bool
  | text s => isBlank s
  | _ => false

/-- Whether the node is a comment. -/
def isComment : Node → Bool
  | comment _ => true
  | _ => false

mutual

/-- Whether two nodes are the same, **attributes in whatever order**. -/
def same : Node → Node → Bool
  | element tag attributes children, element tag' attributes' children' =>
      tag == tag' && attributes.sameEntries attributes' && sameAll children children'
  | text s, text s' => s == s'
  | comment s, comment s' => s == s'
  | _, _ => false

/-- Whether two lists of nodes are the same. -/
def sameAll : List Node → List Node → Bool
  | [], [] => true
  | n :: ns, n' :: ns' => same n n' && sameAll ns ns'
  | _, _ => false

end

mutual

/-- The character data in a node, comments left out. -/
def textContent : Node → String
  | element _ _ children => textContentAll children
  | text s => s
  | comment _ => ""

/-- The character data in nodes, one after the other. -/
def textContentAll : List Node → String
  | [] => ""
  | n :: ns => textContent n ++ textContentAll ns

end

/-- A list of nodes, the last first, with character data added at its end; text
joins text. -/
def consText (s : String) : List Node → List Node
  | text before :: rest => text (before ++ s) :: rest
  | rest => text s :: rest

end Node

namespace Element

/-- The character data in the element. -/
def textContent (e : Element) : String := Node.textContentAll e.children

/-- The children that are elements. -/
def childElements (e : Element) : List Element := e.children.filterMap Node.element?

/-- The value of an attribute. -/
def attribute? (e : Element) (name : String) : Option String := e.attributes.get? name

/-- The element with an attribute written. -/
def withAttribute (e : Element) (name value : String) : Element :=
  { e with attributes := e.attributes.insert name value }

/-- The element with one more child. -/
def push (e : Element) (n : Node) : Element := { e with children := e.children ++ [n] }

/-- The element with character data added at its end; it **joins** text that
stands there. -/
def pushText (e : Element) (s : String) : Element :=
  { e with children := (Node.consText s e.children.reverse).reverse }

end Element

end TreeGrammar
