/-
Reading a document.

The pieces of the text are put together to one tree. Open elements wait on a stack; an
end tag must name the innermost of them. Outside the root only markup counts: text there
must resolve, and is dropped like everything else. Whatever is wrong is reported where
it is met, and only at the end is it asked whether an element is still open and whether
there is a root at all.
-/
import TreeGrammar.Markup.Node
import TreeGrammar.Markup.Piece
import TreeGrammar.Markup.Reference

set_option autoImplicit false

namespace TreeGrammar

/-! ## Attributes -/

/-- Whether a character goes on with the name of an attribute. -/
def isInsideKey (c : Char) : Bool := c != '=' && !Piece.isSpace c

/-- The first attribute of a text that starts with its name: the name, the value as it
is written, and what follows. A name takes its first character whatever it is and runs
up to `=` or space; a value stands in quotes. -/
def cutAttribute (c : Char) (rest : List Char) : Option (List Char × List Char × List Char) :=
  match (rest.dropWhile isInsideKey).dropWhile Piece.isSpace with
  | '=' :: value =>
      match value.dropWhile Piece.isSpace with
      | quote :: value =>
          if quote = '"' ∨ quote = '\'' then
            (Piece.cutAt [quote] value).map fun p => (c :: rest.takeWhile isInsideKey, p.1, p.2)
          else none
      | [] => none
  | _ => none

/-- An attribute takes at least the quotes of its value from what follows its
first character. -/
theorem length_of_cutAttribute {c : Char} {rest key raw after : List Char}
    (h : cutAttribute c rest = some (key, raw, after)) : after.length < rest.length := by
  have hkey := length_dropWhile_le isInsideKey rest
  have hgap := length_dropWhile_le Piece.isSpace (rest.dropWhile isInsideKey)
  revert h
  fun_cases cutAttribute c rest with
  | case2 | case3 | case4 => nofun
  | case1 value heq quote value' hquoted hquote =>
      intro h
      have hvalue := length_dropWhile_le Piece.isSpace value
      obtain ⟨⟨before, after⟩, hcut, ⟨⟩⟩ := Option.map_eq_some_iff.1 h
      have hlt : after.length < value'.length := Piece.length_of_cutAt (List.cons_ne_nil _ _) hcut
      rw [heq, List.length_cons] at hgap
      rw [hquoted, List.length_cons] at hvalue
      show after.length < rest.length
      omega

/-- The attributes that the text of a tag writes, after those of `before`, in order; a
name may be written only once. -/
def readAttributes (before : Attributes) (cs : List Char) : Except MarkupFault Attributes :=
  match _ : cs.dropWhile Piece.isSpace with
  | [] => .ok before
  | c :: rest =>
      match _ : cutAttribute c rest with
      | none => .error .badAttribute
      | some (key, raw, after) =>
          if before.contains (String.ofList key) then .error .badAttribute
          else
            match resolveReferences? raw with
            | none => .error .badAttributeReference
            | some value =>
                readAttributes (before.insert (String.ofList key) (String.ofList value)) after
termination_by cs.length
decreasing_by
  rename_i hspace hcut _
  have hle := length_dropWhile_le Piece.isSpace cs
  have hlt := length_of_cutAttribute hcut
  rw [hspace, List.length_cons] at hle
  omega

/-! ## Putting the pieces together -/

/-- A document being read. -/
structure Reading where
  /-- The open elements, innermost first; their children so far, the **last first**. -/
  stack : List Element := []
  /-- The finished root. -/
  root : Option Element := none
deriving Inhabited

namespace Reading

/-- Adds character data to the innermost open element, if there is one. -/
def addText (r : Reading) (s : String) : Reading :=
  match r.stack with
  | [] => r
  | e :: rest => { r with stack := { e with children := Node.consText s e.children } :: rest }

/-- Adds a node to the innermost open element, if there is one. -/
def addNode (r : Reading) (n : Node) : Reading :=
  match r.stack with
  | [] => r
  | e :: rest => { r with stack := { e with children := n :: e.children } :: rest }

/-- Adds a finished element where it belongs: below the innermost open one, or
as the root. -/
def addElement (r : Reading) (e : Element) : Except MarkupFault Reading :=
  match r.stack, r.root with
  | [], none => .ok { r with root := some e }
  | [], some _ => .error .secondRoot
  | _ :: _, _ => .ok (r.addNode e.node)

/-- Adds a piece. -/
def add (r : Reading) : Piece → Except MarkupFault Reading
  | .skipped => .ok r
  | .verbatim content => .ok (r.addText (String.ofList content))
  | .comment content => .ok (r.addNode (.comment (String.ofList content)))
  | .text raw =>
      match resolveReferences? raw with
      | none => .error .badReference
      | some content => .ok (r.addText (String.ofList content))
  | .tag name attributes closed => do
      let attributes ← readAttributes .empty attributes
      let e : Element := { tag := String.ofList name, attributes }
      if closed then r.addElement e else return { r with stack := e :: r.stack }
  | .endTag name =>
      match r.stack with
      | [] => .error .malformed
      | e :: rest =>
          if e.tag.toList = name then
            { r with stack := rest }.addElement { e with children := e.children.reverse }
          else .error .malformed

/-- The root, if there is one and nothing is open. -/
def finish (r : Reading) : Except MarkupFault Element :=
  match r.stack, r.root with
  | e :: _, _ => .error (.unclosed e.tag)
  | [], none => .error .noRoot
  | [], some e => .ok e

/-- Adds all pieces of a text. -/
def addAll (r : Reading) (cs : List Char) : Except MarkupFault Reading :=
  match _ : Piece.next cs with
  | .error fault => .error fault
  | .ok none => .ok r
  | .ok (some (piece, rest)) =>
      match r.add piece with
      | .error fault => .error fault
      | .ok r => r.addAll rest
termination_by cs.length
decreasing_by exact Piece.length_of_next (by assumption)

end Reading

/-- The characters without the byte order mark that may stand before them. -/
def dropMark : List Char → List Char
  | '\ufeff' :: rest => rest
  | cs => cs

/-- The root of a **document**, read from its characters. -/
def readMarkup (cs : List Char) : Except MarkupFault Element := do
  let r ← Reading.addAll {} (dropMark cs)
  r.finish

/-- The root of a document, read from a string. -/
def Element.ofMarkup (s : String) : Except Failure Element :=
  (readMarkup s.toList).mapError .markup

end TreeGrammar
