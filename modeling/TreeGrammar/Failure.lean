/-
The ways in which an operation fails as a whole.

A failure is a **cause**, told apart by type; its wording is in one function, `message`.
What a document does against its schema is no failure but a violation, of which a walk
collects as many as there are.
-/
import TreeGrammar.Limits

set_option autoImplicit false

namespace TreeGrammar

/-! ## Grammars that do not compile -/

/-- The kinds of construct that are refused. -/
inductive CompileKind where
  /-- An interleave inside another construct. -/
  | nestedInterleave
  /-- A definition that refers back to itself. -/
  | cyclicReference
  /-- A reference to nothing. -/
  | unresolvedReference
  /-- A repetition or a group without a sensible meaning. -/
  | illFormed
deriving DecidableEq, Repr

/-- The kind in words. -/
def CompileKind.label : CompileKind → String
  | .nestedInterleave => "nested interleave"
  | .cyclicReference => "cyclic reference"
  | .unresolvedReference => "unresolved reference"
  | .illFormed => "ill-formed construct"

/-- Why a grammar does not compile. -/
inductive CompileCause where
  | emptyChoice
  | emptyInterleave
  | optionalOfKleene
  | plusOfOptional
  | plusOfKleene
  /-- A block of an interleave holds an interleave. -/
  | interleaveInInterleave
  /-- An interleave is part of a larger content. -/
  | interleaveInside
  /-- A definition that is an interleave is used as part of a larger content. -/
  | interleaveDefinition (name : String)
  | undefinedReference (name : String)
  /-- The references that were followed, and the one that closes the cycle. -/
  | referenceCycle (path : List String) (name : String)
  | undeclaredStart (name : String)
  | undeclaredKind (name : String)
deriving DecidableEq, Repr

namespace CompileCause

/-- The kind that a cause is of. -/
def kind : CompileCause → CompileKind
  | emptyChoice => .illFormed
  | emptyInterleave => .illFormed
  | optionalOfKleene => .illFormed
  | plusOfOptional => .illFormed
  | plusOfKleene => .illFormed
  | interleaveInInterleave => .nestedInterleave
  | interleaveInside => .nestedInterleave
  | interleaveDefinition _ => .nestedInterleave
  | undefinedReference _ => .unresolvedReference
  | referenceCycle _ _ => .cyclicReference
  | undeclaredStart _ => .unresolvedReference
  | undeclaredKind _ => .unresolvedReference

/-- The cause in words. -/
def message : CompileCause → String
  | emptyChoice => "choice without alternatives"
  | emptyInterleave => "interleave without blocks"
  | optionalOfKleene => "optional of a zero-or-more repetition"
  | plusOfOptional => "one-or-more repetition of an optional block"
  | plusOfKleene => "one-or-more repetition of a zero-or-more block"
  | interleaveInInterleave => "interleave blocks must not contain an interleave"
  | interleaveInside => "interleave is only supported as the whole content of an element"
  | interleaveDefinition name =>
      s!"definition '{name}' is an interleave and can only be used as an element's whole content"
  | undefinedReference name => s!"no definition named '{name}'"
  | referenceCycle path name => "reference cycle: " ++ " -> ".intercalate (path ++ [name])
  | undeclaredStart name => s!"start element '{name}' is not declared"
  | undeclaredKind name => s!"kind override for undeclared element '{name}'"

end CompileCause

/-- The text of a compile error: its kind, what happened and, where it is known, the
element or definition in which it happened. -/
def compileText (kind : CompileKind) (message : String) (location : Option String) : String :=
  let text := s!"{kind.label}: {message}"
  match location with
  | none => text
  | some place => text ++ "\n\nLocation: " ++ place

/-- A grammar that does not compile. -/
structure CompileError where
  /-- Why it does not. -/
  cause : CompileCause
  /-- The element or definition in which the cause lies, where it is known. -/
  location : Option String := none
deriving DecidableEq, Repr

/-- The text of the error. -/
def CompileError.message (e : CompileError) : String :=
  compileText e.cause.kind e.cause.message e.location

/-! ## Encoded schemas that cannot be read -/

/-- Why a value is not the compact encoding of a schema. -/
inductive DecodeCause where
  /-- The named part is not an array. -/
  | notArray (part : String)
  /-- The named part holds something that is not a string. -/
  | notStrings (part : String)
  | partCount (found : Nat)
  | moreElementsThanTags (elements tags : Nat)
  | fieldCount (found : Nat)
  | codeNotInteger
  | unknownCode (code : Nat)
  /-- The named index is no index, or too large; the value is given as it was written. -/
  | outOfRange (part value : String)
  | automatonNotObject
  /-- The row of the given state is not an object. -/
  | rowNotObject (state : String)
  | badTokenCode (code : String)
  | tokenOutOfRange (code : Nat)
  /-- A key or a string that is no state code. -/
  | badStateCode (code : String)
  /-- A value of another type that is no state code. -/
  | badStateValue (value : String)
  /-- A table that breaks the rules of content automata. -/
  | malformedAutomaton (problems : List String)
  /-- A cause inside the entry of an element. -/
  | inElement (name : String) (cause : DecodeCause)
deriving DecidableEq, Repr

/-- The cause in words. -/
def DecodeCause.message : DecodeCause → String
  | notArray part => s!"{part} must be an array"
  | notStrings part => s!"{part} must be strings"
  | partCount found => s!"schema must have 3 or 4 entries, found {found}"
  | moreElementsThanTags elements tags => s!"{elements} element declarations for {tags} tag names"
  | fieldCount found => s!"element entry must have 3 fields, found {found}"
  | codeNotInteger => "type code must be an integer"
  | unknownCode code => s!"unknown type code {code}"
  | outOfRange part value => s!"{part} {value} out of range"
  | automatonNotObject => "automaton must be an object"
  | rowNotObject state => s!"transitions of {state} must be an object"
  | badTokenCode code => s!"invalid token code '{code}'"
  | tokenOutOfRange code => s!"token code {code} out of range"
  | badStateCode code => s!"invalid state code '{code}'"
  | badStateValue value => s!"invalid state code {value}"
  | malformedAutomaton problems => "malformed automaton: " ++ "; ".intercalate problems
  | inElement name cause => s!"element '{name}': " ++ cause.message

/-! ## Names, markup, files -/

/-- What is wrong with a name. -/
inductive NameFault where
  /-- No name for an element. -/
  | invalidElement (name : String)
  /-- No name for an attribute. -/
  | invalidAttribute (name : String)
  /-- A name that the schema does not declare. -/
  | undeclared (name : String)
deriving DecidableEq, Repr

/-- The fault in words. -/
def NameFault.message : NameFault → String
  | invalidElement name => s!"Invalid element name: '{name}'"
  | invalidAttribute name => s!"Invalid attribute name: '{name}'"
  | undeclared name => s!"Element '{name}' is not declared"

/-- Why a text is not the markup of a document. -/
inductive MarkupFault where
  /-- Markup that does not end, does not match or is none. -/
  | malformed
  /-- A reference in text that cannot be resolved. -/
  | badReference
  /-- An attribute that is not written as one, or written twice. -/
  | badAttribute
  /-- A reference in the value of an attribute that cannot be resolved. -/
  | badAttributeReference
  | unclosed (name : String)
  | secondRoot
  | noRoot
deriving DecidableEq, Repr

/-- The fault in words. -/
def MarkupFault.message : MarkupFault → String
  | malformed => "Error parsing XML"
  | badReference => "Failed to unescape text"
  | badAttribute => "Failed to parse attribute"
  | badAttributeReference => "Failed to unescape attribute value"
  | unclosed name => s!"Unclosed element <{name}>"
  | secondRoot => "Multiple root elements"
  | noRoot => "Document has no root element"

/-- What went wrong with a file. -/
inductive FileFault where
  /-- There is no such file. -/
  | missing
  /-- Anything else, in the system's words. -/
  | other (reason : String)
deriving DecidableEq, Repr

/-- The fault in words. -/
def FileFault.message : FileFault → String
  | missing => "No such file or directory (os error 2)"
  | other reason => reason

/-! ## All failures -/

/-- Why an operation fails as a whole. -/
inductive Failure where
  | compile (error : CompileError)
  | decode (cause : DecodeCause)
  | name (fault : NameFault)
  | limit (excess : Limits.Excess)
  | file (fault : FileFault)
  | markup (fault : MarkupFault)
  /-- A text that is not JSON, or JSON that does not have the shape asked for. -/
  | json
  | unknownKind (text : String)
  | unknownMode (text : String)
deriving DecidableEq, Repr

/-- The failure in words, each sort with its own opening. -/
def Failure.message : Failure → String
  | compile error => "compile error: " ++ error.message
  | decode cause => "decode error: " ++ cause.message
  | name fault => "name error: " ++ fault.message
  | limit excess => "limit exceeded: " ++ excess.message
  | file fault => "I/O error: " ++ fault.message
  | markup fault => "XML error: " ++ fault.message
  | json => "JSON error"
  | unknownKind text => s!"Unknown element kind '{text}'"
  | unknownMode text =>
      s!"Invalid validation mode: '{text}'. Must be 'strict', 'lax', or 'skip'"

end TreeGrammar
