/-
JSON as it is written.

A `Source` has the shape of a JSON text and leaves open whether its parts have values: a
string may hold half a character, a numeral may be too large. That matters because a
reader may pass over parts that it does not know, and of those it only asks that they
are written as JSON. Where a value is asked for, `Source.value?` wants every part of it
to have one, and brackets to be nested no deeper than a bound.

The reader is a machine with one frame for each open bracket, so that nesting costs it
no recursion.
-/
import TreeGrammar.Json.Lexeme
import TreeGrammar.Json.Value

set_option autoImplicit false

namespace TreeGrammar

/-- A JSON text, read but not yet understood. -/
inductive Source where
  | null
  | bool (b : Bool)
  | number (value : Option Number)
  | string (value : Option String)
  | array (items : List Source)
  | object (members : List (Option String × Source))
deriving Repr, Inhabited

namespace Source

/-! ## Reading -/

/-- An open bracket, with what it holds so far, the **last first**. -/
inductive Frame where
  | array (items : List Source)
  /-- An object in the middle of a member of the given name. -/
  | member (members : List (Option String × Source)) (name : Option String)
deriving Repr

/-- What the reader waits for. -/
inductive Machine where
  /-- A value; or, right behind an opening bracket, the closing one. -/
  | value (frames : List Frame) (closable : Bool)
  /-- A name; or, right behind an opening brace, the closing one. -/
  | name (frames : List Frame) (members : List (Option String × Source)) (closable : Bool)
  /-- The colon behind a name. -/
  | colon (frames : List Frame) (members : List (Option String × Source)) (name : Option String)
  /-- A comma or the closing bracket of the innermost frame. -/
  | next (frame : Frame) (frames : List Frame)
  /-- Nothing more. -/
  | done (v : Source)
deriving Repr

/-- The machine after a value has been finished. -/
def deliver (v : Source) : List Frame → Machine
  | [] => .done v
  | .array items :: frames => .next (.array (v :: items)) frames
  | .member members name :: frames => .next (.member ((name, v) :: members) none) frames

/-- The string of units, if it has a value. -/
def stringOf? (units : List StringUnit) : Option String :=
  (StringUnit.chars? units).map String.ofList

/-- A lexeme that may start a value. -/
def start (frames : List Frame) : Lexeme → Option Machine
  | .openArray => some (.value (.array [] :: frames) true)
  | .openObject => some (.name frames [] true)
  | .null => some (deliver null frames)
  | .bool b => some (deliver (bool b) frames)
  | .numeral x => some (deliver (number (Number.ofNumeral? x)) frames)
  | .string units => some (deliver (string (stringOf? units)) frames)
  | _ => none

/-- One step of the machine. -/
def step : Machine → Lexeme → Option Machine
  | .value (.array [] :: frames) true, .closeArray => some (deliver (array []) frames)
  | .value frames _, l => start frames l
  | .name frames _ true, .closeObject => some (deliver (object []) frames)
  | .name frames members _, .string units => some (.colon frames members (stringOf? units))
  | .colon frames members name, .colon => some (.value (.member members name :: frames) false)
  | .next (.array items) frames, .comma => some (.value (.array items :: frames) false)
  | .next (.array items) frames, .closeArray => some (deliver (array items.reverse) frames)
  | .next (.member members _) frames, .comma => some (.name frames members false)
  | .next (.member members _) frames, .closeObject =>
      some (deliver (object members.reverse) frames)
  | _, _ => none

/-- Reads a text that holds **one value** and nothing else. -/
def ofChars? (cs : List Char) : Option Source := do
  let lexemes ← Lexeme.ofChars? cs
  match ← lexemes.foldlM step (.value [] false) with
  | .done v => some v
  | _ => none

/-- Reads a text that holds one value and nothing else. -/
def ofString? (s : String) : Option Source := ofChars? s.toList

/-! ## Values -/

/-- How deep brackets may be nested. -/
def maxDepth : Nat := 127

/-- The **value**, if every part of it has one and brackets are nested at most
`depth` deep. -/
def value? (depth : Nat) : Source → Option Json
  | null => some .null
  | bool b => some (.bool b)
  | number value => value.map .number
  | string value => value.map .string
  | array items =>
      match depth with
      | 0 => none
      | depth + 1 => (items.mapM (value? depth)).map .array
  | object members =>
      match depth with
      | 0 => none
      | depth + 1 => do
          let members ← members.mapM fun p => do
            let name ← p.1
            let v ← value? depth p.2
            return (name, v)
          return .object members

mutual

/-- A value as if it had been written. -/
def ofJson : Json → Source
  | .null => null
  | .bool b => bool b
  | .number n => number (some n)
  | .string s => string (some s)
  | .array items => array (ofItems items)
  | .object members => object (ofMembers members)

/-- Items as if they had been written. -/
def ofItems : List Json → List Source
  | [] => []
  | v :: rest => ofJson v :: ofItems rest

/-- Members as if they had been written. -/
def ofMembers : List (String × Json) → List (Option String × Source)
  | [] => []
  | (name, v) :: rest => (some name, ofJson v) :: ofMembers rest

end

end Source

/-- Reads a text as a JSON value with its members **in the order of their names**. -/
def Json.ofString? (s : String) : Option Json := do
  let source ← Source.ofString? s
  let v ← source.value? Source.maxDepth
  return v.sorted

end TreeGrammar
