/-
Names of elements and attributes.

A name is one plain part, or two plain parts with a colon between them. A plain part
starts with a letter or an underscore and goes on with letters, digits, underscores,
hyphens, full stops and middle dots; a letter is one of ASCII or of the range U+00C0 to
U+02FF without the two arithmetic signs in it. Everything is checked once, while a
schema is built.
-/

set_option autoImplicit false

namespace TreeGrammar.Name

/-- A letter or an underscore: what a plain part may start with. -/
def isInitial (c : Char) : Bool :=
  ('A' ≤ c && c ≤ 'Z') || c == '_' || ('a' ≤ c && c ≤ 'z')
    || ('\u00c0' ≤ c && c ≤ '\u00d6') || ('\u00d8' ≤ c && c ≤ '\u00f6')
    || ('\u00f8' ≤ c && c ≤ '\u02ff')

/-- What a plain part may go on with. -/
def isFollowing (c : Char) : Bool :=
  isInitial c || ('0' ≤ c && c ≤ '9') || c == '-' || c == '.' || c == '\u00b7'

/-- Whether the characters are a **plain part**: an initial one, then following ones. -/
def isPlain : List Char → Bool
  | [] => false
  | c :: rest => isInitial c && rest.all isFollowing

/-- Whether the characters are a name: a plain part, or two with a colon between them. A
colon belongs to no plain part, so the first one is where to cut. -/
def isValidChars (cs : List Char) : Bool :=
  match cs.dropWhile (· != ':') with
  | [] => isPlain cs
  | _ :: part => isPlain (cs.takeWhile (· != ':')) && isPlain part

/-- Whether a string is usable as the name of an element or an attribute. -/
def isValid (name : String) : Bool := isValidChars name.toList

end TreeGrammar.Name
