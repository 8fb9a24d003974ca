/-
Text in lower case.

Each character becomes its lower case, whatever stands around it, except a capital
sigma: at the end of a word it takes the form that sigma has there. A sigma ends a word
if a letter with a case stands before it and none after it, where the characters that a
word's case passes over do not count.
-/
import TreeGrammar.Letter.Capital
import TreeGrammar.Letter.CaseIgnorable
import TreeGrammar.Letter.Cased

set_option autoImplicit false

namespace TreeGrammar

/-- Whether the first character that counts is a letter with a case. -/
def startsCased (s : List Char) : Bool := (s.find? fun c => !isCaseIgnorable c).any isCased

/-- Whether a sigma between two stretches of text **ends a word**; the stretch before it
is given from its end. -/
def endsWord (before after : List Char) : Bool := startsCased before && !startsCased after

/-- The lower case of a capital sigma between two stretches of text. -/
def lowerSigma (before after : List Char) : Char :=
  if endsWord before after then '\u03c2' else '\u03c3'

/-- The lower case of what follows a stretch of text, which is given from its end. -/
def lowerAfter (before : List Char) : List Char → List Char
  | [] => []
  | c :: rest =>
      (if c = '\u03a3' then [lowerSigma before rest] else lowerChar c) ++
        lowerAfter (c :: before) rest

/-- A text in **lower case**. -/
def lowercase (s : String) : String := String.ofList (lowerAfter [] s.toList)

end TreeGrammar
