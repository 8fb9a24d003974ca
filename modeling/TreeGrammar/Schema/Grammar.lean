/-
Grammars.

A grammar is the description of a document type that a schema is compiled from: the
start element, a declaration of each element, named patterns for the declarations to
refer to, and kinds that are declared and not implied. In JSON it is an object of these
four members, none of them needed, or an array of them in this order. Members that are
not known are passed over unread.
-/
import TreeGrammar.Pattern.Json
import TreeGrammar.Schema.Kind

set_option autoImplicit false

namespace TreeGrammar

/-- The **declaration** of an element. -/
structure Declaration where
  /-- The pattern of its children. -/
  content : Pattern
  /-- The attributes it may have. -/
  attributes : List String := []
deriving DecidableEq, Repr

/-- The description of a document type. -/
structure Grammar where
  /-- The element that a document starts with. -/
  start : Option String := none
  /-- The declared elements. -/
  elements : OrderedTable String Declaration := .empty
  /-- The patterns that references stand for. -/
  definitions : OrderedTable String Pattern := .empty
  /-- The kinds that are declared. -/
  kinds : OrderedTable String ElementKind := .empty
deriving DecidableEq

instance : Inhabited Grammar := ⟨{}⟩

namespace Source

/-- The members that are known, each under the name that `known` gives it and **none
twice**; the names of all members must have values, the values of unknown members are
not looked at. -/
def knownMembers? (known : String → Option String) :
    List (Option String × Source) → OrderedTable String Source →
      Option (OrderedTable String Source)
  | [], found => some found
  | (none, _) :: _, _ => none
  | (some name, v) :: rest, found =>
      match known name with
      | none => knownMembers? known rest found
      | some name =>
          if found.contains name then none else knownMembers? known rest (found.insert name v)

/-- A list of strings. -/
def strings? (depth : Nat) (v : Source) : Option (List String) := do
  match ← v.value? depth with
  | .array items => items.mapM fun
      | .string s => some s
      | _ => none
  | _ => none

/-- A table with what `read` makes of each member of an object; a repeated name keeps
its first place and its last value. -/
def table? {α : Type} (read : Source → Option α) : Source → Option (OrderedTable String α)
  | object members => do
      let pairs ← members.mapM fun p => do
        let name ← p.1
        let v ← read p.2
        return (name, v)
      return .ofList pairs
  | _ => none

/-- What `read` makes of a member that may be missing. -/
def orDefault? {α : Type} (default : α) (read : Source → Option α) :
    Option Source → Option α
  | none => some default
  | some v => read v

end Source

namespace Declaration

/-- The declaration of a content and an optional list of attributes, whose brackets may
be nested at most `depth` deep. -/
def ofParts? (depth : Nat) (content : Source) (attributes : Option Source) :
    Option Declaration := do
  let content ← Pattern.ofJson? (← content.value? depth)
  let attributes ← Source.orDefault? [] (Source.strings? depth) attributes
  return { content, attributes }

/-- The members of a declaration. -/
def knownName? (name : String) : Option String :=
  if name = "content" ∨ name = "attributes" then some name else none

/-- The **declaration** that a JSON value writes: an object, or an array of one or two
items. Its brackets may be nested at most one deeper than `depth`. -/
def ofSource? (depth : Nat) : Source → Option Declaration
  | .object members => do
      let found ← Source.knownMembers? knownName? members .empty
      ofParts? depth (← found.get? "content") (found.get? "attributes")
  | .array [content] => ofParts? depth content none
  | .array [content, attributes] => ofParts? depth content (some attributes)
  | _ => none

/-- The JSON value of a declaration. -/
def toJson (d : Declaration) : Json :=
  .object [("content", d.content.toJson), ("attributes", .strings d.attributes)]

end Declaration

namespace Grammar

/-- The members of a grammar; `types` is another name for `kinds`. -/
def knownName? (name : String) : Option String :=
  if name = "types" then some "kinds"
  else if name = "start" ∨ name = "elements" ∨ name = "definitions" ∨ name = "kinds" then some name
  else none

/-- A name or nothing. -/
def startOf? (depth : Nat) (v : Source) : Option (Option String) := do
  match ← v.value? depth with
  | .null => some none
  | .string s => some (some s)
  | _ => none

/-- The grammar of its four parts, any of which may be missing. The grammar itself and
its tables take two levels of nesting, a declaration a third. -/
def ofParts? (start elements definitions kinds : Option Source) : Option Grammar := do
  let inner := Source.maxDepth - 2
  let start ← Source.orDefault? none (startOf? inner) start
  let elements ←
    Source.orDefault? .empty (Source.table? (Declaration.ofSource? (inner - 1))) elements
  let definitions ← Source.orDefault? .empty
    (Source.table? fun v => (v.value? inner).bind Pattern.ofJson?) definitions
  let kinds ← Source.orDefault? .empty
    (Source.table? fun v => (v.value? inner).bind ElementKind.ofJson?) kinds
  return { start, elements, definitions, kinds }

/-- The **grammar** that a JSON value writes: an object, or an array of up to four items. -/
def ofSource? : Source → Option Grammar
  | .object members => do
      let found ← Source.knownMembers? knownName? members .empty
      ofParts? (found.get? "start") (found.get? "elements") (found.get? "definitions")
        (found.get? "kinds")
  | .array items =>
      if 4 < items.length then none
      else ofParts? items[0]? items[1]? items[2]? items[3]?
  | _ => none

/-- The grammar that a JSON text writes. -/
def ofText (s : String) : Except Failure Grammar :=
  match (Source.ofString? s).bind ofSource? with
  | some g => .ok g
  | none => .error .json

/-- The JSON value of a grammar. -/
def toJson (g : Grammar) : Json :=
  .object
    [ ("start", match g.start with
        | none => .null
        | some name => .string name),
      ("elements", .object (g.elements.entries.map fun p => (p.1, p.2.toJson))),
      ("definitions", .object (g.definitions.entries.map fun p => (p.1, p.2.toJson))),
      ("kinds", .object (g.kinds.entries.map fun p => (p.1, .string p.2.name))) ]

end Grammar

end TreeGrammar
