/-
References in text.

A reference is what stands between `&` and the next `;`: one of five names, or `#` and a
decimal number, or `#x` and a hexadecimal one. A number names a character other than the
null character and has at most as many digits as the greatest one needs. Anything else
after `&` is a fault, as is a second `&` before the `;`.
-/

set_option autoImplicit false

namespace TreeGrammar

/-! ## What is left of a text

A text is read from the front: what stands there is cut off, and the reading goes on
with what follows. It ends because what follows is shorter.
-/

/-- Passing over the characters at the front leaves no more than there was. -/
theorem length_dropWhile_le {α : Type} (p : α → Bool) (l : List α) :
    (l.dropWhile p).length ≤ l.length :=
  (List.dropWhile_suffix p).length_le

/-- A **mapped cut** leaves what the cut itself leaves: whatever is made of the part
that was cut off, the bound on what follows is that of the cut. -/
theorem length_lt_of_map_cut {α β γ : Type} {n : Nat} {cut : Option (α × List γ)}
    {f : α × List γ → β} {made : β} {after : List γ}
    (h : (cut.map fun p => (f p, p.2)) = some (made, after))
    (hcut : ∀ {before}, cut = some (before, after) → after.length < n) : after.length < n := by
  obtain ⟨⟨before, _⟩, heq, ⟨⟩⟩ := Option.map_eq_some_iff.1 h
  exact hcut heq

/-! ## References -/

/-- The value of a digit in a base up to sixteen. -/
def digitValue? (base : Nat) (c : Char) : Option Nat :=
  let value? :=
    if '0' ≤ c && c ≤ '9' then some (c.toNat - '0'.toNat)
    else if 'a' ≤ c && c ≤ 'f' then some (c.toNat - 'a'.toNat + 10)
    else if 'A' ≤ c && c ≤ 'F' then some (c.toNat - 'A'.toNat + 10)
    else none
  value?.filter (· < base)

/-- The number that digits write; no digits write zero. -/
def numberOf? (base : Nat) (digits : List Char) : Option Nat :=
  digits.foldlM (fun n c => (digitValue? base c).map (n * base + ·)) 0

/-- The character of a code point, unless it is null or no character. -/
def characterOf? (code : Nat) : Option Char :=
  if code ≠ 0 ∧ code.isValidChar then some (Char.ofNat code) else none

/-- What a reference stands for, given the characters between `&` and `;`. -/
def referent? : List Char → Option Char
  | '#' :: 'x' :: digits =>
      if 6 < digits.length then none else (numberOf? 16 digits).bind characterOf?
  | '#' :: digits =>
      if 7 < digits.length then none else (numberOf? 10 digits).bind characterOf?
  | name =>
      if name = "lt".toList then some '<'
      else if name = "gt".toList then some '>'
      else if name = "amp".toList then some '&'
      else if name = "apos".toList then some '\''
      else if name = "quot".toList then some '"'
      else none

/-- Whether a character neither ends a reference nor starts another. -/
def isInsideReference (c : Char) : Bool := c != ';' && c != '&'

/-- Text with every reference **resolved**, if all can be. -/
def resolveReferences? : List Char → Option (List Char)
  | [] => some []
  | c :: rest =>
      if c = '&' then
        match _ : rest.dropWhile isInsideReference with
        | ';' :: more => do
            let r ← referent? (rest.takeWhile isInsideReference)
            let resolved ← resolveReferences? more
            return r :: resolved
        | _ => none
      else do
        let resolved ← resolveReferences? rest
        return c :: resolved
termination_by cs => cs.length
decreasing_by
  · have hle := length_dropWhile_le isInsideReference rest
    simp_all only [List.length_cons]
    omega
  · simp

end TreeGrammar
