/-
The commands and their options, as data.

Each command says which words it takes, in order, and which options. Reading arguments
and writing the help both go by these descriptions.
-/

set_option autoImplicit false

namespace TreeGrammar.CommandLine

/-! ## Options -/

/-- What an option is for. -/
inductive OptionUse where
  /-- It stands alone. -/
  | switch
  /-- It takes a text. -/
  | text (shown : String)
  /-- It takes a path, which may not be empty. -/
  | path (shown : String)
  /-- It takes texts, divided by commas; it may come again and adds to them. -/
  | texts (shown : String)
  /-- It asks for the help. -/
  | help
  /-- It asks for the version. -/
  | version
deriving DecidableEq, Repr

/-- The description of an **option**. -/
structure OptionRule where
  /-- The name after two hyphens. -/
  long : String
  /-- The letter after one hyphen. -/
  short : Option Char := none
  /-- What it is for. -/
  use : OptionUse := .switch
  /-- Whether it must be given. -/
  required : Bool := false
  /-- What the help says of it. -/
  about : String
deriving DecidableEq, Repr

namespace OptionRule

/-- How the help shows the value. -/
def shown? (o : OptionRule) : Option String :=
  match o.use with
  | .text shown | .path shown | .texts shown => some shown
  | .switch | .help | .version => none

/-- The option as the usage line shows it. -/
def usage (o : OptionRule) : String :=
  "--" ++ o.long ++ (o.shown?.elim "" fun shown => s!" <{shown}>")

/-- The option as the list of options shows it. -/
def heading (o : OptionRule) : String :=
  (o.short.elim "    " fun c => s!"-{c}, ") ++ o.usage

end OptionRule

/-- A **word** that a command takes. -/
structure WordRule where
  /-- How the help shows it. -/
  shown : String
  /-- What the help says of it. -/
  about : String
deriving DecidableEq, Repr

/-- The option that bounds input more tightly; all commands have it. -/
def strictLimits : OptionRule where
  long := "strict-limits"
  about := "Use strict resource limits"

/-- The option that asks for the help; all commands have it. -/
def helpOption : OptionRule where
  long := "help"
  short := some 'h'
  use := .help
  about := "Print help"

/-- The option that asks for the version; it stands before the command. -/
def versionOption : OptionRule where
  long := "version"
  short := some 'V'
  use := .version
  about := "Print version"

/-- The option that names the schema. -/
def schemaOption : OptionRule where
  long := "schema"
  short := some 's'
  use := .path "SCHEMA"
  required := true
  about := "Path to the schema (grammar or compact JSON)"

/-! ## Commands -/

/-- The **commands**. -/
inductive CommandName where
  | compile
  | validate
  | check
  | insertPosition
deriving DecidableEq, Repr

namespace CommandName

/-- All commands, as the help lists them. -/
def all : List CommandName := [compile, validate, check, insertPosition]

/-- The word for a command. -/
def word : CommandName → String
  | compile => "compile"
  | validate => "validate"
  | check => "check"
  | insertPosition => "insert-pos"

/-- The command of a word. -/
def ofWord? (s : String) : Option CommandName := all.find? fun c => c.word == s

/-- What the help says of a command. -/
def about : CommandName → String
  | compile => "Compile a JSON grammar into the compact encoding"
  | validate => "Validate an XML document against a schema"
  | check => "Summarize a schema and report design findings"
  | insertPosition => "Find where a child can be inserted"

/-- The words that a command takes. -/
def words : CommandName → List WordRule
  | compile => [⟨"GRAMMAR", "Path to the grammar file"⟩]
  | validate => [⟨"FILE", "Path to the XML file to validate"⟩]
  | check => [⟨"SCHEMA", "Path to the schema (grammar or compact JSON)"⟩]
  | insertPosition => []

/-- The options that a command takes, as the help lists them. -/
def options : CommandName → List OptionRule
  | compile =>
      [ { long := "output", short := some 'o', use := .path "OUTPUT",
          about := "Output file (defaults to stdout)" },
        strictLimits,
        { long := "pretty", short := some 'p', about := "Pretty print the output" },
        helpOption ]
  | validate =>
      [ schemaOption,
        strictLimits,
        { long := "mode", short := some 'm', use := .text "MODE",
          about := "Validation mode: strict, lax or skip [default: strict]" },
        helpOption ]
  | check => [strictLimits, helpOption]
  | insertPosition =>
      [ schemaOption,
        strictLimits,
        { long := "parent", use := .text "PARENT", required := true, about := "Parent element" },
        { long := "children", use := .texts "CHILDREN",
          about := "Existing children, comma separated (`#text` for text)" },
        { long := "tag", use := .text "TAG", required := true, about := "Tag to insert" },
        { long := "last", about := "Report the last valid position instead of the first" },
        helpOption ]

end CommandName

/-- The options that stand before the command. -/
def programOptions : List OptionRule := [strictLimits, helpOption, versionOption]

/-! ## Help -/

/-- The name of the program. -/
def programName : String := "contentmodel"

/-- The name and the version of the program. -/
def versionText : String := programName ++ " 0.1.0"

/-- Lines of text, each ended. -/
def ofLines (lines : List String) : String := String.join (lines.map (· ++ "\n"))

/-- A headed list in two columns. -/
def helpSection (title : String) (rows : List (String × String)) : List String :=
  let width := (rows.map fun row => row.1.length).foldl max 0
  let padding (s : String) : String := String.ofList (List.replicate (width - s.length) ' ')
  if rows.isEmpty then []
  else ["", title] ++ rows.map fun row => "  " ++ row.1 ++ padding row.1 ++ "  " ++ row.2

/-- The list of options. -/
def optionSection (options : List OptionRule) : List String :=
  helpSection "Options:" (options.map fun o => (o.heading, o.about))

/-- The usage of the program. -/
def programUsage : String := s!"Usage: {programName} [OPTIONS] <COMMAND>"

/-- The usage of a command. -/
def CommandName.usage (c : CommandName) : String :=
  let required := (c.options.filter OptionRule.required).map OptionRule.usage
  let words := c.words.map fun w => s!"<{w.shown}>"
  s!"Usage: {programName} " ++ " ".intercalate ([c.word, "[OPTIONS]"] ++ required ++ words)

/-- What the help is on. -/
inductive HelpTopic where
  /-- The program. -/
  | program
  /-- A command. -/
  | command (name : CommandName)
  /-- The help itself. -/
  | help
deriving DecidableEq, Repr

namespace HelpTopic

/-- The word for the help, which stands where a command does. -/
def word : String := "help"

/-- What the help says of itself. -/
def about : String := "Print this message or the help of the given subcommand(s)"

/-- The lines of the help on the program. -/
def programLines : List String :=
  ["Content-model compiler and structural validator", "", programUsage]
    ++ helpSection "Commands:" (CommandName.all.map (fun c => (c.word, c.about)) ++ [(word, about)])
    ++ optionSection programOptions

/-- The lines of the help on a command. -/
def commandLines (c : CommandName) : List String :=
  [c.about, "", c.usage]
    ++ helpSection "Arguments:" (c.words.map fun w => (s!"<{w.shown}>", w.about))
    ++ optionSection c.options

/-- The lines of the help on the help. -/
def helpLines : List String :=
  let words := "[COMMAND]..."
  [about, "", s!"Usage: {programName} {word} {words}"]
    ++ helpSection "Arguments:" [(words, "Print help for the subcommand(s)")]

/-- The **text** of the help. -/
def text : HelpTopic → String
  | program => ofLines programLines
  | command c => ofLines (commandLines c)
  | help => ofLines helpLines

/-- The topic of a word. -/
def ofWord? (s : String) : Option HelpTopic :=
  if s = word then some help else (CommandName.ofWord? s).map command

end HelpTopic

end TreeGrammar.CommandLine
