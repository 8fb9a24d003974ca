/-
Carrying out a request.

A response is the whole effect of a request: what is written to the output and the
diagnostics, which file is to be saved, and the exit code. It depends on the arguments
and on the files that are read; these come in as a function.
-/
import TreeGrammar.Analysis.Design
import TreeGrammar.CommandLine.Request
import TreeGrammar.Letter.Lowercase
import TreeGrammar.Markup.Reader
import TreeGrammar.Schema.Load
import TreeGrammar.Validation.Validator

set_option autoImplicit false

namespace TreeGrammar.CommandLine

/-- The effect of a request. -/
structure Response where
  /-- What goes to the output. -/
  output : String := ""
  /-- What goes to the diagnostics. -/
  diagnostics : String := ""
  /-- The exit code. -/
  exitCode : UInt32 := 0
  /-- The path and the content of a file that is saved when the rest is done. -/
  save : Option (String × String) := none
deriving DecidableEq, Repr

namespace Response

/-- A response of lines on the output. -/
def ofOutput (lines : List String) : Response := { output := ofLines lines }

/-- The response to a **failure**, in words. -/
def failure (message : String) : Response :=
  { diagnostics := ofLines [s!"Error: {message}"], exitCode := 1 }

/-- The response after its file has been saved, or has not. -/
def saved (r : Response) : Except FileFault Unit → Response
  | .ok () => { r with save := none }
  | .error fault =>
      { r with
        diagnostics := r.diagnostics ++ (failure fault.message).diagnostics
        exitCode := 1
        save := none }

end Response

/-- The files that can be read, by their paths. -/
abbrev Files := String → Except FileFault String

namespace Command

/-- The paths of the files that a command reads. -/
def inputs : Command → List String
  | compile grammar _ _ => [grammar]
  | validate schema document _ => [schema, document]
  | check schema => [schema]
  | insertPosition schema _ _ _ _ => [schema]

end Command

/-- The schema in a file. -/
def loadSchema (files : Files) (limits : Limits) (path : String) : Except Failure Schema := do
  Schema.ofText limits (← (files path).mapError .file)

/-- The document in a file. -/
def loadDocument (files : Files) (path : String) : Except Failure Element := do
  Element.ofMarkup (← (files path).mapError .file)

/-- The lines that tell what was ambiguous in a grammar. -/
def warningLines (s : Schema) : List String := s.warnings.map fun w => "warning: " ++ w.message

/-! ## Compiling -/

/-- **Compiles** a grammar. That its file cannot be read is said without an opening. -/
def respondToCompile (files : Files) (limits : Limits) (grammar : String)
    (output : Option String) (laidOut : Bool) : Response :=
  match files grammar with
  | .error fault => .failure fault.message
  | .ok text =>
      match (Grammar.ofText text).bind (Schema.ofGrammar limits) with
      | .error e => .failure e.message
      | .ok s =>
          let encoded := Compact.encodeText s laidOut
          match output with
          | none =>
              { output := ofLines [encoded], diagnostics := ofLines (warningLines s) }
          | some path =>
              { diagnostics := ofLines (warningLines s), save := some (path, encoded) }

/-! ## Validating -/

/-- The response that tells of violations, or that there are none. -/
def verdict : List Violation → Response
  | [] => .ofOutput ["✓ Document is valid"]
  | violations =>
      { output := ofLines <|
          ["✗ Document is invalid", "", "Errors:"] ++ violations.map fun v => "  - " ++ v.render
        exitCode := 1 }

/-- **Validates** a document. The schema is looked at first, then the document,
then the mode. -/
def respondToValidate (files : Files) (limits : Limits) (schema document mode : String) :
    Except Failure Response := do
  let s ← loadSchema files limits schema
  let root ← loadDocument files document
  let mode ← ValidationMode.parse (lowercase mode)
  return verdict ({ schema := s, mode : Validator }.validateDocument root)

/-! ## Describing a schema -/

/-- The line that describes an element: its kind, whether it takes text, and
what it holds. -/
def describeRule (g : ElementGraph) (r : ElementRule) : String :=
  let text := if r.content.isTextAllowed then " text" else ""
  let children := match g.children r.tag with
    | [] => ""
    | names => " -> " ++ ", ".intercalate names
  s!"  {r.tag} ({r.kind.name}){text}{children}"

/-- The lines that tell of design findings, or that there are none. -/
def findingLines : List Finding → List String
  | [] => ["✓ No design findings"]
  | findings => "Findings:" :: findings.map fun f => "  - " ++ f.render

/-- **Describes** a schema. -/
def describe (s : Schema) : Response :=
  let g := ElementGraph.ofSchema s
  .ofOutput <|
    [ "=== Schema Summary ===",
      s!"Elements: {s.elements.size}",
      "Start element: " ++ s.start.getD "(none)",
      "" ]
      ++ s.rules.map (describeRule g)
      ++ warningLines s
      ++ [""]
      ++ findingLines s.designFindings

/-! ## Finding a place -/

/-- A child of the given name; text stands for itself. -/
def childNamed (name : String) : Node :=
  match Token.ofName name with
  | .text => .text "text"
  | .element tag => .element tag .empty []

/-- **Finds** the place for a child among others. -/
def respondToInsertPosition (files : Files) (limits : Limits) (schema parent : String)
    (children : List String) (tag : String) (side : Side) : Except Failure Response := do
  let s ← loadSchema files limits schema
  let r ← s.rule parent
  match r.insertion? (children.map childNamed) tag side with
  | some i => return .ofOutput [toString i]
  | none =>
      return { output := ofLines [s!"✗ <{tag}> cannot be inserted into <{parent}>"], exitCode := 1 }

/-! ## All requests -/

/-- The response that a failure cuts short. -/
def orFailure : Except Failure Response → Response
  | .ok r => r
  | .error e => .failure e.message

/-- The **response** to a command, given the files that it reads. -/
def Invocation.respond (i : Invocation) (files : Files) : Response :=
  match i.command with
  | .compile grammar output laidOut => respondToCompile files i.limits grammar output laidOut
  | .validate schema document mode =>
      orFailure (respondToValidate files i.limits schema document mode)
  | .check schema => orFailure ((loadSchema files i.limits schema).map describe)
  | .insertPosition schema parent children tag side =>
      orFailure (respondToInsertPosition files i.limits schema parent children tag side)

/-- The paths of the files that a request reads. -/
def Request.inputs : Request → List String
  | .run i => i.command.inputs
  | .help _ | .version | .misuse => []

/-- The **response** to a request, given the files that it reads. -/
def Request.respond (files : Files) : Request → Response
  | .help topic => { output := topic.text }
  | .version => .ofOutput [versionText]
  | .misuse =>
      { diagnostics := ofLines [programUsage, "", "For more information, try '--help'."]
        exitCode := 2 }
  | .run i => i.respond files

end TreeGrammar.CommandLine
