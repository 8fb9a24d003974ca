/-
JSON values and their text.

The members of an object are kept in the order in which they stand, and a name may occur
twice. Where a value is to be independent of all that, `Json.sorted` brings its members
into the order of their names, the last of equal names winning.
-/
import TreeGrammar.Json.Number
import TreeGrammar.OrderedTable

set_option autoImplicit false

namespace TreeGrammar

/-- A **JSON value**. -/
inductive Json where
  | null
  | bool (b : Bool)
  | number (n : Number)
  | string (s : String)
  | array (items : List Json)
  | object (members : List (String × Json))
deriving Repr, Inhabited

namespace Json

/-- The array of items that are strings. -/
def strings (items : List String) : Json := array (items.map string)

/-- The number of a whole number. -/
def nat (n : Nat) : Json := number (.natural n)

/-! ## Order of members -/

/-- The members of a table in the order of their names. -/
def sortMembers (members : List (String × Json)) : List (String × Json) :=
  (OrderedTable.ofList members).entries.mergeSort fun p q => decide (p.1 ≤ q.1)

mutual

/-- The value with the members of each object **in the order of their names**; of
members with one name the last stays. -/
def sorted : Json → Json
  | array items => array (sortedItems items)
  | object members => object (sortMembers (sortedMembers members))
  | v => v

/-- The items, each with its members in order. -/
def sortedItems : List Json → List Json
  | [] => []
  | v :: rest => sorted v :: sortedItems rest

/-- The members, each value with its members in order. -/
def sortedMembers : List (String × Json) → List (String × Json)
  | [] => []
  | (name, v) :: rest => (name, sorted v) :: sortedMembers rest

end

/-! ## Text -/

/-- A hexadecimal digit in lower case. -/
def hexDigit (n : Nat) : Char := (Nat.toDigits 16 n).headD '0'

/-- A character of a string, or the escape for it. Only the quote, the backslash and
control characters need one. -/
def escapeChar (c : Char) : List Char :=
  if c = '"' then ['\\', '"']
  else if c = '\\' then ['\\', '\\']
  else if c = '\n' then ['\\', 'n']
  else if c = '\t' then ['\\', 't']
  else if c = '\r' then ['\\', 'r']
  else if c = '\u0008' then ['\\', 'b']
  else if c = '\u000c' then ['\\', 'f']
  else if c.toNat < 32 then
    ['\\', 'u', '0', '0', hexDigit (c.toNat / 16), hexDigit (c.toNat % 16)]
  else [c]

/-- A string in quotes. -/
def quote (s : String) : String :=
  String.ofList ('"' :: s.toList.flatMap escapeChar ++ ['"'])

mutual

/-- The text of a value **without spaces**. -/
def compact : Json → String
  | null => "null"
  | bool b => if b then "true" else "false"
  | number n => n.render
  | string s => quote s
  | array items => "[" ++ ",".intercalate (compactItems items) ++ "]"
  | object members => "\x7b" ++ ",".intercalate (compactMembers members) ++ "\x7d"

/-- The texts of items. -/
def compactItems : List Json → List String
  | [] => []
  | v :: rest => compact v :: compactItems rest

/-- The texts of members. -/
def compactMembers : List (String × Json) → List String
  | [] => []
  | (name, v) :: rest => (quote name ++ ":" ++ compact v) :: compactMembers rest

end

/-- Parts on lines of their own between two brackets, two spaces deeper than the
brackets; without parts the brackets alone. -/
def layOut (indent : Nat) (opening closing : String) (parts : List String) : String :=
  let margin (n : Nat) : String := "\n" ++ String.ofList (List.replicate n ' ')
  match parts with
  | [] => opening ++ closing
  | parts =>
      opening ++ margin (indent + 2) ++ ("," ++ margin (indent + 2)).intercalate parts
        ++ margin indent ++ closing

mutual

/-- The text of a value **over several lines**, as it stands behind a margin. -/
def pretty (indent : Nat) : Json → String
  | array items => layOut indent "[" "]" (prettyItems (indent + 2) items)
  | object members => layOut indent "\x7b" "\x7d" (prettyMembers (indent + 2) members)
  | v => compact v

/-- The texts of items. -/
def prettyItems (indent : Nat) : List Json → List String
  | [] => []
  | v :: rest => pretty indent v :: prettyItems indent rest

/-- The texts of members. -/
def prettyMembers (indent : Nat) : List (String × Json) → List String
  | [] => []
  | (name, v) :: rest => (quote name ++ ": " ++ pretty indent v) :: prettyMembers indent rest

end

end Json

end TreeGrammar
