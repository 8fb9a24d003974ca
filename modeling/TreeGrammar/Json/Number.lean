/-
Numbers in JSON.

A numeral is kept as it is written until its value is asked for. Whole numbers of 64
bits are exact; every other numeral is a double, and one too large for a double has no
value. A double is found from the first digits that fit into 64 bits and a power of ten,
by one multiplication or division.
-/
import TreeGrammar.Json.Shortest

set_option autoImplicit false

namespace TreeGrammar

/-- The value of a numeral. -/
inductive Number where
  /-- A whole number below `2 ^ 64`. -/
  | natural (n : Nat)
  /-- The negative of a whole number between `1` and `2 ^ 63`. -/
  | negative (n : Nat)
  /-- A double, by its bits. -/
  | double (bits : UInt64)
deriving DecidableEq, Repr

/-- A numeral as it is written. -/
structure Numeral where
  /-- Whether it has a minus sign. -/
  minus : Bool
  /-- The digits before the point. -/
  whole : List Char
  /-- The digits behind the point; none without a point. -/
  fraction : List Char
  /-- The sign and the digits of the power of ten, if one is written. -/
  power : Option (Bool × List Char)
deriving DecidableEq, Repr

namespace Number

/-! ## Reading -/

/-- Reads digits into a number as long as it stays **within a bound**; the digits left
over are returned. -/
def accumulate (bound : Nat) : Nat → List Char → Nat × List Char
  | n, [] => (n, [])
  | n, c :: rest =>
      let next := n * 10 + (c.toNat - '0'.toNat)
      if bound < next then (n, c :: rest) else accumulate bound next rest

/-- The double next to a power of ten. -/
def powerOfTen (k : Nat) : Float := Float.ofScientific 1 false k

/-- A double times a power of ten, unless that is too large. A power that no double
reaches is taken in steps, so that the result may still be one of the smallest. -/
def scale (f : Float) (power : Int) : Option Float :=
  if power.natAbs ≤ 308 then
    if 0 ≤ power then
      let g := f * powerOfTen power.natAbs
      if g.isInf then none else some g
    else some (f / powerOfTen power.natAbs)
  else if f == 0 then some f
  else if 0 ≤ power then none
  else scale (f / powerOfTen 308) (power + 308)
termination_by power.natAbs
decreasing_by omega

/-- The double of a sign and a magnitude. -/
def ofFloat (minus : Bool) (f : Float) : Number := double (if minus then -f else f).toBits

/-- The number that a sign and a whole number below `2 ^ 64` write. There is no negative
zero among the whole numbers, so it is a double. -/
def ofWhole (minus : Bool) (n : Nat) : Number :=
  if !minus then natural n
  else if 1 ≤ n ∧ n ≤ Nat.pow 2 63 then negative n
  else ofFloat true n.toUInt64.toFloat

/-- The **value** of a numeral, if it has one. -/
def ofNumeral? (x : Numeral) : Option Number :=
  let bound := Nat.pow 2 64 - 1
  let (n, more) := accumulate bound 0 x.whole
  if x.fraction = [] ∧ x.power = none ∧ more = [] then some (ofWhole x.minus n)
  else
    let (n, unread) := accumulate bound n x.fraction
    let shift : Int := more.length - (x.fraction.length - unread.length : Nat)
    let scaled (power : Int) := (scale n.toUInt64.toFloat power).map (ofFloat x.minus)
    match x.power with
    | none => scaled shift
    | some (minus, digits) =>
        let (power, unread) := accumulate (Nat.pow 2 31 - 1) 0 digits
        if unread ≠ [] then
          if n ≠ 0 ∧ !minus then none else some (ofFloat x.minus 0)
        else scaled (if minus then shift - power else shift + power)

/-! ## Writing -/

/-- A decimal with a point or a power of ten: **positional** from `10 ^ -5` up to
below `10 ^ 16`, with at least one digit on each side of the point, and with a power
of ten elsewhere. -/
def renderDecimal (d : Decimal) : String :=
  let digits := Nat.toDigits 10 d.digits
  let top : Int := digits.length + d.exponent
  let zeros (k : Int) : List Char := List.replicate k.toNat '0'
  let chars : List Char :=
    if 0 ≤ d.exponent ∧ top ≤ 16 then digits ++ zeros d.exponent ++ ['.', '0']
    else if 0 < top ∧ top ≤ 16 then digits.take top.toNat ++ '.' :: digits.drop top.toNat
    else if -5 < top ∧ top ≤ 0 then '0' :: '.' :: zeros (-top) ++ digits
    else
      let mantissa := match digits with
        | first :: second :: rest => first :: '.' :: second :: rest
        | digits => digits
      let power := top - 1
      mantissa ++ 'e' :: (if power < 0 then '-' else '+') :: Nat.toDigits 10 power.natAbs
  String.ofList chars

/-- The number in writing. -/
def render : Number → String
  | natural n => toString n
  | negative n => "-" ++ toString n
  | double bits =>
      let signBit := Nat.pow 2 63
      let sign := if signBit ≤ bits.toNat then "-" else ""
      if bits.toNat % signBit = 0 then sign ++ "0.0"
      else sign ++ renderDecimal (Binary.ofBits bits).shortest

/-- The whole number below `2 ^ 64` that the number is, if it is one. -/
def natural? : Number → Option Nat
  | natural n => some n
  | _ => none

end Number

end TreeGrammar
