/-
The lexemes of JSON.

A text is first cut into brackets, commas, colons, words, numerals and strings. A string
is kept as units, since an escape may write half of a character; a numeral is kept as it
is written. Space between lexemes is dropped. Each lexeme takes at least one character
(`length_of_next`).
-/
import TreeGrammar.Json.Number
import TreeGrammar.Markup.Reference

set_option autoImplicit false

namespace TreeGrammar

/-- A unit of a string: a character, or **half** of one that an escape writes. -/
inductive StringUnit where
  | char (c : Char)
  /-- The first half of a character above U+FFFF. -/
  | high (code : Nat)
  /-- The second half of one. -/
  | low (code : Nat)
deriving DecidableEq, Repr

namespace StringUnit

/-- The unit that four hexadecimal digits write. -/
def ofCode (code : Nat) : StringUnit :=
  if 0xD800 ≤ code ∧ code < 0xDC00 then high code
  else if 0xDC00 ≤ code ∧ code < 0xE000 then low code
  else char (Char.ofNat code)

/-- The characters that units write, if each first half is followed by a second half and
each second half follows a first. -/
def chars? : List StringUnit → Option (List Char)
  | [] => some []
  | char c :: rest => (chars? rest).map (c :: ·)
  | high h :: low l :: rest =>
      (chars? rest).map (Char.ofNat (0x10000 + (h - 0xD800) * 0x400 + (l - 0xDC00)) :: ·)
  | high _ :: _ => none
  | low _ :: _ => none

end StringUnit

/-- A lexeme. -/
inductive Lexeme where
  | openArray
  | closeArray
  | openObject
  | closeObject
  | comma
  | colon
  | null
  | bool (b : Bool)
  | numeral (x : Numeral)
  | string (units : List StringUnit)
deriving DecidableEq, Repr

namespace Lexeme

/-- Space between lexemes. -/
def isSpace (c : Char) : Bool := c == ' ' || c == '\n' || c == '\t' || c == '\r'

/-- Whether a character is a decimal digit. -/
def isDigit (c : Char) : Bool := '0' ≤ c && c ≤ '9'

/-! ## Strings -/

/-- The character that a backslash and another character write. -/
def escaped? (c : Char) : Option Char :=
  if c = '"' then some '"'
  else if c = '\\' then some '\\'
  else if c = '/' then some '/'
  else if c = 'b' then some '\u0008'
  else if c = 'f' then some '\u000c'
  else if c = 'n' then some '\n'
  else if c = 'r' then some '\r'
  else if c = 't' then some '\t'
  else none

/-- The units of a string behind its opening quote, and what follows its closing one. -/
def cutString : List Char → Option (List StringUnit × List Char)
  | [] => none
  | '"' :: rest => some ([], rest)
  | '\\' :: 'u' :: a :: b :: c :: d :: rest =>
      match numberOf? 16 [a, b, c, d], cutString rest with
      | some code, some (units, after) => some (.ofCode code :: units, after)
      | _, _ => none
  | '\\' :: c :: rest =>
      match escaped? c, cutString rest with
      | some c, some (units, after) => some (.char c :: units, after)
      | _, _ => none
  | c :: rest =>
      if c.toNat < 32 then none
      else
        match cutString rest with
        | some (units, after) => some (.char c :: units, after)
        | none => none

/-- What follows a string is **shorter**, by its closing quote at least. -/
theorem length_of_cutString {cs after : List Char} {units : List StringUnit}
    (h : cutString cs = some (units, after)) : after.length < cs.length := by
  fun_induction cutString cs generalizing units with
  | case1 | case4 | case6 | case7 | case9 => cases h
  | case2 rest =>
      cases h
      exact Nat.lt_succ_self _
  | case3 a b c d rest code us after' hcut hcode ih =>
      cases h
      exact Nat.lt_add_right 6 (ih hcut)
  | case5 c rest _ e us after' hcut hesc ih =>
      cases h
      exact Nat.lt_add_right 2 (ih hcut)
  | case8 c rest _ _ _ _ us after' hcut ih =>
      cases h
      exact Nat.lt_succ_of_lt (ih hcut)

/-! ## Numerals -/

/-- The digits at the front, at least one, and what follows them. -/
def cutDigits (cs : List Char) : Option (List Char × List Char) :=
  match cs.takeWhile isDigit with
  | [] => none
  | digits => some (digits, cs.dropWhile isDigit)

/-- The digits before the point: a zero alone, or digits of which the first is not zero. -/
def cutWhole : List Char → Option (List Char × List Char)
  | '0' :: rest => some (['0'], rest)
  | cs => cutDigits cs

/-- The digits behind the point, if there is one. -/
def cutFraction : List Char → Option (List Char × List Char)
  | '.' :: rest => cutDigits rest
  | cs => some ([], cs)

/-- The power of ten, if there is one. -/
def cutPower : List Char → Option (Option (Bool × List Char) × List Char)
  | [] => some (none, [])
  | c :: rest =>
      if c = 'e' ∨ c = 'E' then
        let (minus, rest) := match rest with
          | '-' :: rest => (true, rest)
          | '+' :: rest => (false, rest)
          | rest => (false, rest)
        (cutDigits rest).map fun p => (some (minus, p.1), p.2)
      else some (none, c :: rest)

/-- The numeral at the front, and what follows it. -/
def cutNumeral (minus : Bool) (cs : List Char) : Option (Numeral × List Char) := do
  let (whole, cs) ← cutWhole cs
  let (fraction, cs) ← cutFraction cs
  let (power, cs) ← cutPower cs
  return (⟨minus, whole, fraction, power⟩, cs)

/-- At least one digit is cut off: without any there is nothing to cut. -/
theorem length_of_cutDigits {cs digits after : List Char}
    (h : cutDigits cs = some (digits, after)) : after.length < cs.length := by
  revert h
  fun_cases cutDigits cs with
  | case1 => nofun
  | case2 hne =>
      rintro ⟨⟩
      cases cs with
      | nil => exact absurd rfl hne
      | cons c rest =>
          have hc : isDigit c = true :=
            Decidable.byContradiction fun hc => hne (List.takeWhile_cons_of_neg hc)
          rw [List.dropWhile_cons_of_pos hc]
          exact Nat.lt_succ_of_le (length_dropWhile_le isDigit rest)

theorem length_of_cutWhole {cs digits after : List Char}
    (h : cutWhole cs = some (digits, after)) : after.length < cs.length := by
  unfold cutWhole at h
  split at h
  · cases h
    exact Nat.lt_succ_self _
  · exact length_of_cutDigits h

theorem length_of_cutFraction {cs digits after : List Char}
    (h : cutFraction cs = some (digits, after)) : after.length ≤ cs.length := by
  unfold cutFraction at h
  split at h
  · exact Nat.le_of_lt (Nat.lt_succ_of_lt (length_of_cutDigits h))
  · cases h
    exact Nat.le_refl _

theorem length_of_cutPower {cs after : List Char} {power : Option (Bool × List Char)}
    (h : cutPower cs = some (power, after)) : after.length ≤ cs.length := by
  revert h
  fun_cases cutPower cs with
  | case1 =>
      rintro ⟨⟩
      exact Nat.le_refl _
  | case2 c rest _ minus digits hsign =>
      intro h
      -- A sign takes a character or nothing.
      have hle : digits.length ≤ rest.length := by
        split at hsign <;> cases hsign <;> simp
      have hlt := length_lt_of_map_cut h length_of_cutDigits
      exact Nat.le_succ_of_le (Nat.le_of_lt (Nat.lt_of_lt_of_le hlt hle))
  | case3 c rest =>
      rintro ⟨⟩
      exact Nat.le_refl _

/-- A numeral takes at least its digits before the point. -/
theorem length_of_cutNumeral {minus : Bool} {cs after : List Char} {x : Numeral}
    (h : cutNumeral minus cs = some (x, after)) : after.length < cs.length := by
  simp only [cutNumeral, bind, Option.bind_eq_some_iff, pure, Option.some.injEq,
    Prod.mk.injEq] at h
  obtain ⟨⟨whole, a₁⟩, h₁, ⟨fraction, a₂⟩, h₂, ⟨power, a₃⟩, h₃, -, heq⟩ := h
  have l₁ := length_of_cutWhole h₁
  have l₂ := length_of_cutFraction h₂
  have l₃ := length_of_cutPower h₃
  dsimp only at l₂ l₃ heq
  rw [← heq]
  omega

/-! ## Cutting a text -/

/-- A fixed word behind its first character, and what follows it. -/
def cutWord (word : List Char) (l : Lexeme) (cs : List Char) : Option (Lexeme × List Char) :=
  if word.isPrefixOf cs then some (l, cs.drop word.length) else none

/-- The lexeme of a single character, if it is one. -/
def mark? (c : Char) : Option Lexeme :=
  if c = '[' then some openArray
  else if c = ']' then some closeArray
  else if c = '\x7b' then some openObject
  else if c = '\x7d' then some closeObject
  else if c = ',' then some comma
  else if c = ':' then some colon
  else none

/-- The fixed word that starts with a character: what must follow it, and its lexeme. -/
def word? (c : Char) : Option (List Char × Lexeme) :=
  if c = 'n' then some ("ull".toList, null)
  else if c = 't' then some ("rue".toList, bool true)
  else if c = 'f' then some ("alse".toList, bool false)
  else none

/-- The string or numeral that starts with a character, and what follows it. -/
def nextValue (c : Char) (rest : List Char) : Option (Lexeme × List Char) :=
  if c = '"' then (cutString rest).map fun p => (string p.1, p.2)
  else if c = '-' then (cutNumeral true rest).map fun p => (numeral p.1, p.2)
  else (cutNumeral false (c :: rest)).map fun p => (numeral p.1, p.2)

/-- The **lexeme** that starts with a character, and what follows it. -/
def next (c : Char) (rest : List Char) : Option (Lexeme × List Char) :=
  match mark? c, word? c with
  | some l, _ => some (l, rest)
  | none, some (word, l) => cutWord word l rest
  | none, none => nextValue c rest

theorem length_of_cutWord {word cs after : List Char} {l l' : Lexeme}
    (h : cutWord word l cs = some (l', after)) : after.length ≤ cs.length := by
  unfold cutWord at h
  split at h
  · cases h
    exact (List.drop_suffix _ _).length_le
  · cases h

theorem length_of_nextValue {c : Char} {rest after : List Char} {l : Lexeme}
    (h : nextValue c rest = some (l, after)) : after.length ≤ rest.length := by
  unfold nextValue at h
  split at h
  · exact Nat.le_of_lt (length_lt_of_map_cut h length_of_cutString)
  split at h
  · exact Nat.le_of_lt (length_lt_of_map_cut h length_of_cutNumeral)
  · exact Nat.le_of_lt_succ (length_lt_of_map_cut h length_of_cutNumeral)

/-- What follows a lexeme is no longer than what followed its first character. -/
theorem length_of_next {c : Char} {rest after : List Char} {l : Lexeme}
    (h : next c rest = some (l, after)) : after.length ≤ rest.length := by
  unfold next at h
  split at h
  · obtain ⟨-, rfl⟩ := Prod.mk.inj (Option.some.inj h)
    exact Nat.le_refl _
  · exact length_of_cutWord h
  · exact length_of_nextValue h

/-- The **lexemes** of a text, if it is made of lexemes and space. -/
def ofChars? : List Char → Option (List Lexeme)
  | [] => some []
  | c :: rest =>
      if isSpace c then ofChars? rest
      else
        match _ : next c rest with
        | none => none
        | some (l, after) => (ofChars? after).map (l :: ·)
termination_by cs => cs.length
decreasing_by
  · simp
  · have := length_of_next (by assumption)
    simp only [List.length_cons]
    omega

end Lexeme

end TreeGrammar
