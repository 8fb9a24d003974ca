/-
What the arguments ask for.

Arguments that were read well still have to name what the command cannot do without.
Then they are a request: for a text on the program, or for a command to be carried out.
-/
import TreeGrammar.CommandLine.Arguments
import TreeGrammar.Content.Insertion
import TreeGrammar.Limits

set_option autoImplicit false

namespace TreeGrammar.CommandLine

/-- A command with all that it needs. Files are given by their paths. -/
inductive Command where
  /-- Compile a grammar and write it down, in a file or on the output. -/
  | compile (grammar : String) (output : Option String) (laidOut : Bool)
  /-- Validate a document in the mode of the given name. -/
  | validate (schema document mode : String)
  /-- Describe a schema and its design. -/
  | check (schema : String)
  /-- Find the place for a child among others. -/
  | insertPosition (schema parent : String) (children : List String) (tag : String)
      (side : Side)
deriving DecidableEq, Repr

/-- A command and the bounds under which it is carried out. -/
structure Invocation where
  /-- The bounds. -/
  limits : Limits
  /-- The command. -/
  command : Command
deriving DecidableEq, Repr

/-- What arguments ask for. -/
inductive Request where
  /-- The help on a topic. -/
  | help (topic : HelpTopic)
  /-- The version. -/
  | version
  /-- Nothing that could be done. -/
  | misuse
  /-- A command. -/
  | run (invocation : Invocation)
deriving DecidableEq, Repr

/-- The parts of a text between commas; there is always one more than there are commas. -/
def splitAtCommas (s : String) : List String := (s.toList.splitOn ',').map String.ofList

/-- The command that arguments describe, unless they lack something **required**. -/
def Arguments.command? (g : Arguments) : CommandName → Option Command
  | .compile => do
      let grammar ← g.words.head?
      return .compile grammar (g.value? "output") (g.has "pretty")
  | .validate => do
      let schema ← g.value? "schema"
      let document ← g.words.head?
      return .validate schema document ((g.value? "mode").getD "strict")
  | .check => do
      let schema ← g.words.head?
      return .check schema
  | .insertPosition => do
      let schema ← g.value? "schema"
      let parent ← g.value? "parent"
      let tag ← g.value? "tag"
      let children := (g.values "children").flatMap splitAtCommas
      return .insertPosition schema parent children tag (if g.has "last" then .last else .first)

namespace Request

/-- The request of a call for help on what follows. -/
def helpOn : List String → Request
  | [] => .help .program
  | [word] =>
      match HelpTopic.ofWord? word with
      | some topic => .help topic
      | none => .misuse
  | _ :: _ :: _ => .misuse

/-- The request of arguments that follow a command. The bounds are strict if that is
asked for **before or after** the command. -/
def ofCommand (c : CommandName) (before : Arguments) (rest : List String) : Request :=
  match readArguments c {} none rest with
  | .error .help => .help (.command c)
  | .error .version => .version
  | .error .misuse => .misuse
  | .ok g =>
      let strict := before.has strictLimits.long || g.has strictLimits.long
      match g.command? c with
      | some command => .run ⟨if strict then .strict else .standard, command⟩
      | none => .misuse

/-- The **request** of all arguments after the program's name. -/
def ofArguments (arguments : List String) : Request :=
  match readProgram {} arguments with
  | .error .help => .help .program
  | .error .version => .version
  | .error .misuse => .misuse
  | .ok (before, word, rest) =>
      if word = HelpTopic.word then helpOn rest
      else
        match CommandName.ofWord? word with
        | some c => ofCommand c before rest
        | none => .misuse

end Request

end TreeGrammar.CommandLine
