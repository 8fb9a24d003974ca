/-
Reading arguments.

Arguments are read from left to right against the options of a command. An argument is a
word, a long option, a cluster of short options or the mark after which all are words.
An option that takes a value takes it from its own argument, after an equals sign or
after its letter, or else from the next one. The first thing that is not as it should be
ends the reading, and so does a call for help.
-/
import TreeGrammar.CommandLine.Usage

set_option autoImplicit false

namespace TreeGrammar.CommandLine

/-- Why a reading ends before the arguments do. -/
inductive Interruption where
  /-- The arguments are not as the command takes them. -/
  | misuse
  /-- The help is asked for. -/
  | help
  /-- The version is asked for. -/
  | version
deriving DecidableEq, Repr

/-- What has been read. -/
structure Arguments where
  /-- The words, in order. -/
  words : List String := []
  /-- The options with their values, in order; a switch has an empty one. -/
  options : List (String × String) := []
deriving DecidableEq, Repr

namespace Arguments

/-- Whether an option was given. -/
def has (g : Arguments) (long : String) : Bool := g.options.any fun p => p.1 == long

/-- The values of an option. -/
def values (g : Arguments) (long : String) : List String :=
  (g.options.filter fun p => p.1 == long).map Prod.snd

/-- The value of an option, if it was given. -/
def value? (g : Arguments) (long : String) : Option String := (g.values long).head?

/-- Adds an option. **Only lists** may be given twice, and no path is empty. -/
def give (g : Arguments) (o : OptionRule) (value : String) : Except Interruption Arguments :=
  match o.use with
  | .help => .error .help
  | .version => .error .version
  | .texts _ => .ok { g with options := g.options ++ [(o.long, value)] }
  | .path _ =>
      if g.has o.long || value.isEmpty then .error .misuse
      else .ok { g with options := g.options ++ [(o.long, value)] }
  | .text _ | .switch =>
      if g.has o.long then .error .misuse
      else .ok { g with options := g.options ++ [(o.long, value)] }

/-- Adds a word, of which there may be so many; all are paths, so none is empty. -/
def giveWord (g : Arguments) (count : Nat) (word : String) : Except Interruption Arguments :=
  if g.words.length < count && !word.isEmpty then .ok { g with words := g.words ++ [word] }
  else .error .misuse

end Arguments

/-! ## One argument -/

/-- The **shapes** of an argument. -/
inductive ArgumentShape where
  | word
  /-- The mark after which all arguments are words. -/
  | mark
  /-- A long option, without the hyphens. -/
  | long (body : List Char)
  /-- Short options, without the hyphen. -/
  | cluster (body : List Char)
deriving DecidableEq, Repr

/-- The shape of an argument. One hyphen alone is a word. -/
def ArgumentShape.of (argument : String) : ArgumentShape :=
  match argument.toList with
  | ['-', '-'] => .mark
  | '-' :: '-' :: body => .long body
  | '-' :: c :: body => .cluster (c :: body)
  | _ => .word

/-- What was read, and the option whose value comes next. -/
abbrev Reading := Except Interruption (Arguments × Option OptionRule)

/-- Reads a **long option**. -/
def readLong (rules : List OptionRule) (g : Arguments) (body : List Char) : Reading :=
  let name := String.ofList (body.takeWhile (· != '='))
  let attached := body.dropWhile (· != '=')
  match rules.find? fun o => o.long == name with
  | none => .error .misuse
  | some o =>
      match o.shown?, attached with
      | none, [] => return (← g.give o "", none)
      | none, _ :: _ => .error .misuse
      | some _, [] => .ok (g, some o)
      | some _, _ :: value => return (← g.give o (String.ofList value), none)

/-- Reads a **cluster** of short options. What follows the letter of an option that
takes a value is that value, and an equals sign between them is no part of it. -/
def readCluster (rules : List OptionRule) (g : Arguments) : List Char → Reading
  | [] => .ok (g, none)
  | c :: rest =>
      match rules.find? fun o => o.short == some c with
      | none => .error .misuse
      | some o =>
          match o.shown?, rest with
          | none, _ =>
              match g.give o "" with
              | .error e => .error e
              | .ok g => readCluster rules g rest
          | some _, [] => .ok (g, some o)
          | some _, '=' :: value => return (← g.give o (String.ofList value), none)
          | some _, value => return (← g.give o (String.ofList value), none)

/-! ## All arguments -/

/-- Reads the arguments after the mark: **all are words**. -/
def readWords (count : Nat) (g : Arguments) : List String → Except Interruption Arguments
  | [] => .ok g
  | a :: rest => do readWords count (← g.giveWord count a) rest

/-- Reads the **arguments of a command**. Where an option waits for its value, only a
word will do. -/
def readArguments (c : CommandName) (g : Arguments) (waiting : Option OptionRule) :
    List String → Except Interruption Arguments
  | [] => if waiting.isSome then .error .misuse else .ok g
  | a :: rest =>
      match ArgumentShape.of a, waiting with
      | .word, some o => do readArguments c (← g.give o a) none rest
      | _, some _ => .error .misuse
      | .word, none => do readArguments c (← g.giveWord c.words.length a) none rest
      | .mark, none => readWords c.words.length g rest
      | .long body, none => do
          let (g, waiting) ← readLong c.options g body
          readArguments c g waiting rest
      | .cluster body, none => do
          let (g, waiting) ← readCluster c.options g body
          readArguments c g waiting rest

/-- Reads the **options before the command**, and gives the word that follows
with the rest. -/
def readProgram (g : Arguments) : List String →
    Except Interruption (Arguments × String × List String)
  | [] => .error .misuse
  | a :: rest =>
      match ArgumentShape.of a with
      | .word => .ok (g, a, rest)
      | .mark => .error .misuse
      | .long body => do
          let (g, _) ← readLong programOptions g body
          readProgram g rest
      | .cluster body => do
          let (g, _) ← readCluster programOptions g body
          readProgram g rest

end TreeGrammar.CommandLine
