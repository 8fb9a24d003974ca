/-
Blank text.

A text is blank if each of its characters has the Unicode property White_Space. Blank
text between elements is layout: where a content takes no text, it is passed over.
-/

set_option autoImplicit false

namespace TreeGrammar

/-- Whether a character has the property **White_Space**. -/
def isBlankChar (c : Char) : Bool :=
  ('\u0009' ≤ c && c ≤ '\u000d') || c == '\u0020' || c == '\u0085' || c == '\u00a0'
    || c == '\u1680' || ('\u2000' ≤ c && c ≤ '\u200a') || c == '\u2028' || c == '\u2029'
    || c == '\u202f' || c == '\u205f' || c == '\u3000'

/-- Whether a text is blank; the empty text is. -/
def isBlank (s : String) : Bool := s.toList.all isBlankChar

end TreeGrammar
