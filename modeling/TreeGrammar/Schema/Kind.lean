/-
The kinds of element.

A kind says what role an element plays. It changes nothing in validation; it is for the
design checks and for whoever shows a document. A grammar may declare it; else text and
elements in the content imply it.
-/
import TreeGrammar.Content.Expression
import TreeGrammar.Json.Value

set_option autoImplicit false

namespace TreeGrammar

/-- The role of an element. -/
inductive ElementKind where
  /-- Text only. -/
  | text
  /-- Elements only. -/
  | element
  /-- Text and elements side by side. -/
  | hybrid
  /-- A note that belongs to what surrounds it. -/
  | note
  /-- Part of running text. -/
  | inlineElement
  /-- An empty mark. -/
  | anchor
  /-- A group of other elements. -/
  | container
  /-- Content that another schema describes. -/
  | external
deriving DecidableEq, Repr

namespace ElementKind

/-- All kinds, in the order of their codes. -/
def all : List ElementKind :=
  [text, element, hybrid, note, inlineElement, anchor, container, external]

/-- The code of a kind in the compact encoding. -/
def code : ElementKind → Nat
  | text => 0
  | element => 1
  | hybrid => 2
  | note => 3
  | inlineElement => 4
  | anchor => 5
  | container => 6
  | external => 7

/-- The kind of a code. -/
def ofCode? (code : Nat) : Option ElementKind := all.find? fun k => k.code == code

/-- The kind's name in grammars. -/
def name : ElementKind → String
  | text => "text"
  | element => "element"
  | hybrid => "hybrid"
  | note => "annotation"
  | inlineElement => "inline-element"
  | anchor => "anchor"
  | container => "container"
  | external => "external"

/-- The kind of a name. -/
def ofName? (name : String) : Option ElementKind := all.find? fun k => k.name == name

/-- The kind that a text names. -/
def parse (s : String) : Except Failure ElementKind :=
  match ofName? s with
  | some kind => .ok kind
  | none => .error (.unknownKind s)

/-- The kind that a JSON value names: its name, or an object that maps the name
alone to `null`. -/
def ofJson? : Json → Option ElementKind
  | .string name => ofName? name
  | .object [(name, .null)] => ofName? name
  | _ => none

/-- The kind that a content **implies**: text and elements make a hybrid, text alone
makes text, and all else an element. -/
def infer (e : Expression) : ElementKind :=
  if e.isTextAllowed then
    if e.allowedTokens.any fun t => !t.isText then hybrid else text
  else element

theorem ofCode?_code (k : ElementKind) : ofCode? k.code = some k := by cases k <;> rfl

end ElementKind

end TreeGrammar
