/-
The shortest decimal of a binary number.

A double stands for a whole interval of reals, those that round to it. Of the decimals
in the interval one with the fewest digits is wanted, and of those the nearest to the
double itself. With a given number of digits decimals form a grid, and if a point of the
grid lies in the interval, so does one of the two points next to the double; so the
grids are tried from one digit on, in exact arithmetic, and seventeen digits are always
enough.
-/

set_option autoImplicit false

namespace TreeGrammar

/-- A decimal: its digits as a number, and the power of ten they are multiplied by. -/
structure Decimal where
  digits : Nat
  exponent : Int
deriving DecidableEq, Repr

/-- A positive double: `significand · 2 ^ exponent`, its interval reaching from `low` to
`high` in quarters of its last place. -/
structure Binary where
  significand : Nat
  exponent : Int
  low : Nat
  high : Nat
  /-- Whether the ends belong to the interval. -/
  closed : Bool
deriving DecidableEq, Repr

namespace Binary

/-- The positive double of a bit pattern, the sign left aside. Below a power of two the
grid of doubles is twice as fine, so the interval reaches only half as far down. -/
def ofBits (bits : UInt64) : Binary :=
  let hidden : Nat := Nat.pow 2 52
  let fraction : Nat := bits.toNat % hidden
  let biased : Nat := bits.toNat / hidden % Nat.pow 2 11
  let m : Nat := if biased = 0 then fraction else fraction + hidden
  let q : Int := if biased = 0 then -1074 else Int.ofNat biased - 1075
  { significand := m
    exponent := q
    low := if fraction = 0 ∧ 1 < biased then 4 * m - 1 else 4 * m - 2
    high := 4 * m + 2
    closed := decide (m % 2 = 0) }

/-- The fraction by which quarters of the last place are multiplied to count in units of
`10 ^ g`. -/
def gridFactor (b : Binary) (g : Int) : Nat × Nat :=
  let q := b.exponent - 2
  (Nat.pow 2 q.toNat * Nat.pow 10 (-g).toNat, Nat.pow 2 (-q).toNat * Nat.pow 10 g.toNat)

/-- The number of digits before the point; zero or less for a number below one tenth. -/
def magnitude (b : Binary) : Int :=
  let fits (k : Int) : Bool :=
    let f := b.gridFactor k
    4 * b.significand * f.1 < f.2
  let steps : Nat := ((List.range 660).find? fun (i : Nat) => fits (Int.ofNat i - 330)).getD 0
  (steps : Int) - 330

/-- Of the two points of the grid next to the double the nearer one **in its interval**,
if any. -/
def onGrid (b : Binary) (g : Int) : Option Nat :=
  let (num, den) := b.gridFactor g
  let value := 4 * b.significand * num
  let d := value / den
  let inside (x y : Nat) : Bool := if b.closed then x ≤ y else x < y
  let lower := inside (b.low * num) (d * den)
  let upper := inside ((d + 1) * den) (b.high * num)
  let below := value - d * den
  let above := (d + 1) * den - value
  match lower, upper with
  | false, false => none
  | true, false => some d
  | false, true => some (d + 1)
  | true, true =>
      if below < above then some d
      else if above < below then some (d + 1)
      else some (if d % 2 = 0 then d else d + 1)

end Binary

/-- The decimal without zeros at the end of its digits, up to a number of them. -/
def Decimal.strip : Nat → Decimal → Decimal
  | 0, d => d
  | n + 1, d =>
      if d.digits ≠ 0 ∧ d.digits % 10 = 0 then
        Decimal.strip n ⟨d.digits / 10, d.exponent + 1⟩
      else d

/-- The **shortest decimal** of a positive double. -/
def Binary.shortest (b : Binary) : Decimal :=
  let top := b.magnitude
  let found := (List.range 17).findSome? fun (i : Nat) =>
    (b.onGrid (top - (i + 1))).map fun d => Decimal.strip 17 ⟨d, top - (i + 1)⟩
  found.getD ⟨0, 0⟩

end TreeGrammar
