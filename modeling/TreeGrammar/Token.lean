/-
Tokens: the letters of the words that content models describe.

A child of an element counts as one token, either **text** or an element of some name.
Grammars write text under the reserved name `#text`, which no element can bear, since a
name cannot start with `#`.
-/

set_option autoImplicit false

namespace TreeGrammar

/-- What a child of an element counts as. -/
inductive Token where
  /-- Character data. -/
  | text
  /-- An element of the given name. -/
  | element (name : String)
deriving DecidableEq, Repr, Inhabited

namespace Token

/-- The reserved name of text. -/
def textName : String := "#text"

/-- The token that a grammar means by a name. -/
def ofName (name : String) : Token := if name = textName then text else element name

/-- The name under which a grammar writes the token. -/
def name : Token → String
  | text => textName
  | element name => name

/-- Whether the token is text. -/
def isText : Token → Bool
  | text => true
  | element _ => false

/-- The element's name, if the token is an element. -/
def elementName? : Token → Option String
  | text => none
  | element name => some name

/-- The token as a message speaks of it. -/
def describe : Token → String
  | text => "text"
  | element name => s!"element '{name}'"

/-- The token as a list of tokens shows it. -/
def render : Token → String
  | text => textName
  | element name => s!"'{name}'"

/-- The **order of tokens**: text first, then elements by the code points of their names. -/
def le : Token → Token → Bool
  | text, _ => true
  | element _, text => false
  | element a, element b => decide (a ≤ b)

end Token

end TreeGrammar
