/-
Patterns in JSON.

A pattern is an object whose `kind` names the construct, with one more member for the
name or the blocks of it, or else an array of these two. Members that belong to no
construct are passed over; the kind and the member that belongs to the construct must
stand there once. Inside another pattern the kind may also be the number of the
construct.

A value is read from the inside out: for each part it is worked out what it could be, a
name, a number, a pattern or a list of patterns, and what stands around it takes what it
needs.
-/
import TreeGrammar.Json.Source
import TreeGrammar.Pattern.Basic

set_option autoImplicit false

namespace TreeGrammar

/-- The constructs of patterns. -/
inductive Construct where
  | token
  | sequence
  | choice
  | interleave
  | optional
  | kleene
  | plus
  | ref
deriving DecidableEq, Repr

namespace Construct

/-- All constructs, in the order of their numbers. -/
def all : List Construct := [token, sequence, choice, interleave, optional, kleene, plus, ref]

/-- The construct's name. -/
def name : Construct → String
  | token => "token"
  | sequence => "sequence"
  | choice => "choice"
  | interleave => "interleave"
  | optional => "optional"
  | kleene => "kleene"
  | plus => "plus"
  | ref => "ref"

/-- The construct of a name. -/
def ofName? (name : String) : Option Construct := all.find? fun c => c.name == name

/-- The member that belongs to the construct. -/
def member : Construct → String
  | token => "name"
  | ref => "name"
  | sequence => "blocks"
  | choice => "blocks"
  | interleave => "blocks"
  | optional => "block"
  | kleene => "block"
  | plus => "block"

end Construct

/-- What a JSON value could be in a pattern. -/
structure Meaning where
  /-- The string it is. -/
  word : Option String := none
  /-- The whole number it is. -/
  number : Option Nat := none
  /-- The list of patterns it is. -/
  blocks : Option (List Pattern) := none
  /-- The pattern it is. -/
  block : Option Pattern := none

namespace Meaning

/-- The construct that a kind names, by its name or its number. -/
def construct? (m : Meaning) : Option Construct :=
  match m.word, m.number with
  | some word, _ => Construct.ofName? word
  | none, some number => Construct.all[number]?
  | none, none => none

/-- The pattern of a construct with its member. -/
def build? (c : Construct) (m : Meaning) : Option Pattern :=
  match c with
  | .token => m.word.map .token
  | .ref => m.word.map .ref
  | .sequence => m.blocks.map .sequence
  | .choice => m.blocks.map .choice
  | .interleave => m.blocks.map .interleave
  | .optional => m.block.map .optional
  | .kleene => m.block.map .kleene
  | .plus => m.block.map .plus

/-- The member of a name, if it stands there **once**. -/
def only? (name : String) (members : List (String × Meaning)) : Option Meaning :=
  match members.filter fun p => p.1 == name with
  | [p] => some p.2
  | _ => none

/-- The pattern of an object. -/
def ofMembers? (members : List (String × Meaning)) : Option Pattern := do
  let kind ← only? "kind" members
  let c ← kind.construct?
  let m ← only? c.member members
  build? c m

/-- The pattern of an array. -/
def ofItems? : List Meaning → Option Pattern
  | [kind, m] => do
      let c ← kind.construct?
      build? c m
  | _ => none

mutual

/-- What a JSON value could be. -/
def ofJson : Json → Meaning
  | .string s => { word := some s }
  | .number n => { number := n.natural? }
  | .array items =>
      let meanings := ofItems items
      { blocks := meanings.mapM Meaning.block, block := ofItems? meanings }
  | .object members => { block := ofMembers? (ofMembers members) }
  | _ => {}

/-- What the items could be. -/
def ofItems : List Json → List Meaning
  | [] => []
  | v :: rest => ofJson v :: ofItems rest

/-- What the members could be. -/
def ofMembers : List (String × Json) → List (String × Meaning)
  | [] => []
  | (name, v) :: rest => (name, ofJson v) :: ofMembers rest

end

end Meaning

namespace Pattern

/-- Whether the kind of an outermost pattern is given by number, which it must not be. -/
def isNumbered : Json → Bool
  | .object members => members.any fun p => p.1 == "kind" && (Meaning.ofJson p.2).number.isSome
  | .array (kind :: _) => (Meaning.ofJson kind).number.isSome
  | _ => false

/-- The **pattern** that a JSON value writes. -/
def ofJson? (v : Json) : Option Pattern :=
  if isNumbered v then none else (Meaning.ofJson v).block

/-- The pattern that a JSON text writes. -/
def ofString? (s : String) : Option Pattern := do
  let source ← Source.ofString? s
  ofJson? (← source.value? Source.maxDepth)

mutual

/-- The JSON value of a pattern, its kind first. -/
def toJson : Pattern → Json
  | token name => .object [("kind", .string "token"), ("name", .string name)]
  | ref name => .object [("kind", .string "ref"), ("name", .string name)]
  | sequence blocks => .object [("kind", .string "sequence"), ("blocks", .array (toItems blocks))]
  | choice blocks => .object [("kind", .string "choice"), ("blocks", .array (toItems blocks))]
  | interleave blocks =>
      .object [("kind", .string "interleave"), ("blocks", .array (toItems blocks))]
  | optional block => .object [("kind", .string "optional"), ("block", toJson block)]
  | kleene block => .object [("kind", .string "kleene"), ("block", toJson block)]
  | plus block => .object [("kind", .string "plus"), ("block", toJson block)]

/-- The JSON values of patterns. -/
def toItems : List Pattern → List Json
  | [] => []
  | p :: ps => toJson p :: toItems ps

end

/-- A table of named patterns, from a JSON object; each name keeps its first place and
its last pattern. -/
def tableOfJson? : Json → Option (OrderedTable String Pattern)
  | .object members => do
      let patterns ← members.mapM fun p => (ofJson? p.2).map fun q => (p.1, q)
      return .ofList patterns
  | _ => none

end Pattern

end TreeGrammar
