/-
From a grammar to its schema.

The names that a grammar mentions are checked first, those of its elements in their
order together with the compilation of their contents. All elements are compiled in one
session, so a definition is compiled for the first element that needs it and copied for
the others.
-/
import TreeGrammar.Compile.Content
import TreeGrammar.Name
import TreeGrammar.Schema.Basic
import TreeGrammar.Schema.Grammar

set_option autoImplicit false

namespace TreeGrammar

namespace Name

/-- Refuses what is no name for an element. -/
def checkElement (name : String) : Except Failure Unit :=
  if isValid name then .ok () else .error (.name (.invalidElement name))

/-- Refuses what is no name for an attribute. -/
def checkAttribute (name : String) : Except Failure Unit :=
  if isValid name then .ok () else .error (.name (.invalidAttribute name))

end Name

namespace Schema

/-- The rule of one declaration. -/
def compileRule (book : Rulebook) (kinds : OrderedTable String ElementKind) (tag : String)
    (d : Declaration) : Compiling ElementRule := do
  Compiling.ofExcept (Name.checkElement tag)
  Compiling.ofExcept (d.attributes.forM Name.checkAttribute)
  modifyThe Session fun s => { s with location := some tag }
  let content := Expression.ofCompiled (← Compiling.pattern book d.content)
  Compiling.ofExcept
    ((content.allowedTokens.filterMap Token.elementName?).forM Name.checkElement)
  let kind := (kinds.get? tag).getD (ElementKind.infer content)
  return { tag, kind, attributes := d.attributes.eraseDups, content }

/-- The rules of declarations, in order. -/
def compileRules (book : Rulebook) (kinds : OrderedTable String ElementKind) :
    List (String × Declaration) → Compiling (List (String × ElementRule))
  | [] => return []
  | (tag, d) :: rest => do
      let r ← compileRule book kinds tag d
      let rs ← compileRules book kinds rest
      return (tag, r) :: rs

/-- Refuses a start or a kind of an element that is not declared. -/
def checkMentions (g : Grammar) : Except Failure Unit := do
  match g.start with
  | none => pure ()
  | some name =>
      if !g.elements.contains name then
        throw (.compile { cause := .undeclaredStart name })
  match g.kinds.keys.find? fun name => !g.elements.contains name with
  | none => pure ()
  | some name => throw (.compile { cause := .undeclaredKind name })

/-- The **schema of a grammar**. -/
def ofGrammar (limits : Limits) (g : Grammar) : Except Failure Schema := do
  (limits.check .elements g.elements.size).mapError .limit
  checkMentions g
  let (result, session) :=
    (compileRules { definitions := g.definitions, limits } g.kinds g.elements.entries).run.run {}
  let rules ← result
  return { elements := .ofList rules, start := g.start, warnings := session.warnings, limits }

end Schema

end TreeGrammar
