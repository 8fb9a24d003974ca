/-
The program.

It reads the files that a request names, writes what the response says, saves the file
that is to be saved, and ends with the exit code.
-/
import TreeGrammar.CommandLine.Response

set_option autoImplicit false

namespace TreeGrammar.CommandLine

/-- The fault of a file operation: the reason in the system's words, with the system's
number for it. -/
def FileFault.ofSystem (e : IO.Error) : FileFault :=
  match e with
  | .noFileOrDirectory _ _ _ => .missing
  | .alreadyExists _ code reason | .invalidArgument _ code reason
  | .permissionDenied _ code reason | .resourceExhausted _ code reason
  | .inappropriateType _ code reason | .noSuchThing _ code reason
  | .interrupted _ code reason | .otherError code reason | .resourceBusy code reason
  | .resourceVanished code reason | .unsupportedOperation code reason
  | .hardwareFault code reason | .unsatisfiedConstraints code reason
  | .illegalOperation code reason | .protocolError code reason | .timeExpired code reason =>
      .other s!"{reason} (os error {code})"
  | .unexpectedEof | .userError _ => .other (toString e)

/-- Runs a file operation and catches its fault. -/
def catchFault {α : Type} (operation : IO α) : IO (Except FileFault α) := do
  match ← operation.toBaseIO with
  | .ok a => return .ok a
  | .error e => return .error (FileFault.ofSystem e)

/-- Reads a text from a file. -/
def readText (path : String) : IO (Except FileFault String) := do
  match ← catchFault (do (← IO.FS.Handle.mk path .read).readBinToEnd) with
  | .error fault => return .error fault
  | .ok bytes =>
      match String.fromUTF8? bytes with
      | some text => return .ok text
      | none => return .error (.other "stream did not contain valid UTF-8")

/-- **Answers** the arguments after the program's name. -/
def answer (arguments : List String) : IO UInt32 := do
  let request := Request.ofArguments arguments
  let texts ← request.inputs.mapM fun path => return (path, ← readText path)
  let files : Files := fun path => (texts.lookup path).getD (.error .missing)
  let response := request.respond files
  IO.print response.output
  IO.eprint response.diagnostics
  match response.save with
  | none => return response.exitCode
  | some (path, text) =>
      let final := response.saved (← catchFault (IO.FS.writeFile path text))
      IO.eprint (String.ofList (final.diagnostics.toList.drop response.diagnostics.length))
      return final.exitCode

end TreeGrammar.CommandLine

/-- The program. -/
def main (arguments : List String) : IO UInt32 := TreeGrammar.CommandLine.answer arguments
