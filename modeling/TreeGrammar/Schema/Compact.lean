/-
The compact encoding.

Compiling is the dear part of loading a schema, so a compiled schema can be written down
as it is. The encoding is an array of the tags, the attribute names, an entry for each
declared element and the index of the start element. Tags beyond the declared ones are
those that contents mention. An entry has the code of the kind, the indices of the
attributes and the table of the automaton, or an array of tables for an interleave. A
table maps the code of a state to a row, and a row maps the code of a token to the code
of a state: numbered states have new numbers, in the order in which they occur.

Warnings and bounds are not part of the encoding.
-/
import TreeGrammar.Automaton.Check
import TreeGrammar.Schema.Basic
import TreeGrammar.Schema.Grammar

set_option autoImplicit false

namespace TreeGrammar.Compact

/-! ## Codes -/

/-- The code of `start`. -/
def startCode : String := "S"

/-- The code of `fin`. -/
def finCode : String := "E"

/-- The code of text. -/
def textCode : String := "T"

/-- The code of epsilon. -/
def epsilonCode : String := "E"

/-- The whole number that digits write, up to a bound; a plus sign may stand before them. -/
def readNatural? (bound : Nat) (s : String) : Option Nat :=
  let digits := match s.toList with
    | '+' :: digits => digits
    | digits => digits
  if digits.isEmpty then none else (numberOf? 10 digits).filter (· ≤ bound)

/-- The greatest number of a state. -/
def maxState : Nat := Nat.pow 2 32 - 1

/-- The greatest index. -/
def maxIndex : Nat := Nat.pow 2 64 - 1

/-! ## Writing -/

/-- The code of a state, given the numbered states in the order of their new numbers. -/
def stateCode (numbered : List State) : State → Json
  | .start => .string startCode
  | .fin => .string finCode
  | s => .nat ((numbered.idxOf? s).getD 0)

/-- The code of a state as the name of a row. -/
def stateName (numbered : List State) : State → String
  | .start => startCode
  | .fin => finCode
  | s => toString ((numbered.idxOf? s).getD 0)

/-- The code of a label, unless it is an element without an index. -/
def labelCode? (tags : List String) : Label → Option String
  | .epsilon => some epsilonCode
  | .token .text => some textCode
  | .token (.element name) => (tags.idxOf? name).map toString

/-- The table of an automaton. -/
def encodeAutomaton (tags : List String) (a : Automaton) : Json :=
  let numbered := a.inner
  let row (r : Row) : Json := .object <| Json.sortMembers <| r.entries.filterMap fun p =>
    (labelCode? tags p.1).map fun code => (code, stateCode numbered p.2)
  .object <| Json.sortMembers <| a.rows.entries.map fun p => (stateName numbered p.1, row p.2)

/-- The content of an element. -/
def encodeContent (tags : List String) : Expression → Json
  | .single a => encodeAutomaton tags a
  | .interleave blocks _ => .array (blocks.map (encodeAutomaton tags))

/-- The tags of a schema: the declared ones, then those that contents mention. -/
def allTags (s : Schema) : List String :=
  (s.tags ++ s.rules.flatMap ElementRule.childNames).eraseDups

/-- The attributes of a schema. -/
def allAttributes (s : Schema) : List String :=
  (s.rules.flatMap ElementRule.attributes).eraseDups

/-- The entry of an element. -/
def encodeRule (tags attributes : List String) (r : ElementRule) : Json :=
  .array
    [ .nat r.kind.code,
      .array ((r.attributes.filterMap attributes.idxOf?).map .nat),
      encodeContent tags r.content ]

/-- The **compact encoding** of a schema. -/
def encode (s : Schema) : Json :=
  let tags := allTags s
  let attributes := allAttributes s
  let start := (s.start.bind tags.idxOf?).map Json.nat
  .array
    ([.strings tags, .strings attributes, .array (s.rules.map (encodeRule tags attributes))]
      ++ start.toList)

/-- The text of the encoding, on one line or laid out. -/
def encodeText (s : Schema) (laidOut : Bool) : String :=
  if laidOut then (encode s).pretty 0 else (encode s).compact

/-! ## Reading -/

/-- The result of reading a part. -/
abbrev Decoded := Except DecodeCause

/-- The items of an array. -/
def items (part : String) : Json → Decoded (List Json)
  | .array items => .ok items
  | _ => .error (.notArray part)

/-- A string among the strings of a part. -/
def stringIn (part : String) : Json → Decoded String
  | .string s => .ok s
  | _ => .error (.notStrings part)

/-- The whole number that a value is. -/
def natural? : Json → Option Nat
  | .number n => n.natural?
  | _ => none

/-- The entry of a list that a value is the index of. -/
def entryAt (part : String) (list : List String) (v : Json) : Decoded String :=
  match (natural? v).bind fun i => list[i]? with
  | some entry => .ok entry
  | none => .error (.outOfRange part v.compact)

/-- The state of a code. -/
def decodeState (code : String) : Decoded State :=
  if code = startCode then .ok .start
  else if code = finCode then .ok .fin
  else
    match readNatural? maxState code with
    | some n => .ok (.id n)
    | none => .error (.badStateCode code)

/-- The state that an edge enters. -/
def decodeTarget : Json → Decoded State
  | .string code => decodeState code
  | v =>
      match (natural? v).filter (· ≤ maxState) with
      | some n => .ok (.id n)
      | none => .error (.badStateValue v.compact)

/-- The label of a code. -/
def decodeLabel (tags : List String) (code : String) : Decoded Label :=
  if code = epsilonCode then .ok .epsilon
  else if code = textCode then .ok (.token .text)
  else
    match readNatural? maxIndex code with
    | none => .error (.badTokenCode code)
    | some i =>
        match tags[i]? with
        | some name => .ok (.token (.element name))
        | none => .error (.tokenOutOfRange i)

/-- The edges of a row. -/
def decodeRow (tags : List String) (source : State) :
    List (String × Json) → Decoded (List Edge)
  | [] => .ok []
  | (code, v) :: rest => do
      let label ← decodeLabel tags code
      let target ← decodeTarget v
      let more ← decodeRow tags source rest
      return ⟨source, label, target⟩ :: more

/-- The edges of a table. -/
def decodeRows (tags : List String) : List (String × Json) → Decoded (List Edge)
  | [] => .ok []
  | (code, v) :: rest => do
      let source ← decodeState code
      match v with
      | .object row =>
          let edges ← decodeRow tags source row
          let more ← decodeRows tags rest
          return edges ++ more
      | _ => throw (.rowNotObject source.render)

/-- The automaton of a table, which must keep the **rules of automata**. -/
def decodeAutomaton (tags : List String) : Json → Decoded Automaton
  | .object rows => do
      let a := Automaton.ofEdges (← decodeRows tags rows)
      if a.problems.isEmpty then return a else throw (.malformedAutomaton a.problems)
  | _ => .error .automatonNotObject

/-- The content of an element. -/
def decodeContent (tags : List String) : Json → Decoded Expression
  | .array blocks =>
      return .interleave (← blocks.mapM (decodeAutomaton tags)) .firstMatch
  | v => return .single (← decodeAutomaton tags v)

/-- The kind of a code. -/
def decodeKind (v : Json) : Decoded ElementKind :=
  match natural? v with
  | none => .error .codeNotInteger
  | some code =>
      match ElementKind.ofCode? code with
      | some kind => .ok kind
      | none => .error (.unknownCode code)

/-- The rule of an entry. -/
def decodeRule (tags attributes : List String) (tag : String) (v : Json) :
    Decoded ElementRule := do
  match ← items "element" v with
  | [code, indices, content] =>
      let kind ← decodeKind code
      let names ← (← items "attribute indices" indices).mapM (entryAt "attribute index" attributes)
      let content ← decodeContent tags content
      return { tag, kind, attributes := names.eraseDups, content }
  | fields => throw (.fieldCount fields.length)

/-- The rules of entries, with the tags that they declare. -/
def decodeRules (tags attributes : List String) :
    List (String × Json) → Decoded (List (String × ElementRule))
  | [] => .ok []
  | (tag, v) :: rest => do
      let r ← (decodeRule tags attributes tag v).mapError (.inElement tag)
      let rs ← decodeRules tags attributes rest
      return (tag, r) :: rs

/-- The start element, if there is one: the index of a declared tag. -/
def decodeStart (declared : List String) : Option Json → Decoded (Option String)
  | none => .ok none
  | some .null => .ok none
  | some v => return some (← entryAt "start index" declared v)

/-- The schema of three parts and perhaps a start. -/
def decodeParts (tags attributes entries : Json) (start : Option Json) : Decoded Schema := do
  let tags ← (← items "tag names" tags).mapM (stringIn "tag names")
  let attributes ← (← items "attribute names" attributes).mapM (stringIn "attribute names")
  let entries ← items "element list" entries
  if tags.length < entries.length then
    throw (.moreElementsThanTags entries.length tags.length)
  let rules ← decodeRules tags attributes (tags.zip entries)
  let start ← decodeStart (tags.take entries.length) start
  return { elements := .ofList rules, start }

/-- The **schema** that a value encodes. -/
def decode (v : Json) : Decoded Schema := do
  match ← items "schema" v with
  | [tags, attributes, entries] => decodeParts tags attributes entries none
  | [tags, attributes, entries, start] => decodeParts tags attributes entries (some start)
  | parts => throw (.partCount parts.length)

/-- The schema that a text encodes. -/
def decodeText (s : String) : Except Failure Schema :=
  match Json.ofString? s with
  | none => .error .json
  | some v => (decode v).mapError .decode

end TreeGrammar.Compact
