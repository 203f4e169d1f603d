import ProtoSchema.Decimal.Double

/-!
The fewest decimal digits that read back as a given double, and of those the nearest to it.
-/

namespace ProtoSchema.Shortest

/-- Which of two equally near decimals is taken. -/
inductive Tie where
  | up
  | toEven
deriving DecidableEq, Repr

/-- A positive decimal: `digits`, with the point after the first of them, times ten to the
`exponent`. -/
structure Scientific where
  digits : List Char
  exponent : Int
deriving DecidableEq, Repr

/-- The exponent of the greatest power of ten that is at most the positive fraction. -/
def exponentOf (num den : Nat) : Int :=
  let e := (Double.digitCount num : Int) - Double.digitCount den
  if den * Nat.pow 10 e.toNat ≤ num * Nat.pow 10 (-e).toNat then e else e - 1

/-- The fraction divided by the given power of ten, rounded down, and what is left over, as a
fraction of the divisor's denominator. -/
def gridPoint (num den : Nat) (power : Int) : Nat × Nat × Nat :=
  let n := num * Nat.pow 10 (-power).toNat
  let d := den * Nat.pow 10 power.toNat
  (n / d, n % d, d)

/-- Of the two points around a value, the nearer one among those that read back. -/
def choose (tie : Tie) (lower left den : Nat) (lowerFits upperFits : Bool) : Option Nat :=
  match lowerFits, upperFits with
  | true, true =>
    if 2 * left < den then some lower
    else if den < 2 * left then some (lower + 1)
    else
      match tie with
      | .up => some (lower + 1)
      | .toEven => some (if lower % 2 = 0 then lower else lower + 1)
  | true, false => some lower
  | false, true => some (lower + 1)
  | false, false => none

/-- A decimal with `count` digits that reads back as the magnitude, and its last digit's power. -/
def withDigits (tie : Tie) (magnitude : Fin (2047 * Nat.pow 2 52)) (count : Nat) :
    Option (Nat × Int) :=
  let (num, den) := Double.ratio magnitude
  let power := exponentOf num den - count + 1
  let (lower, left, d) := gridPoint num den power
  let fits (n : Nat) : Bool := Double.ofDecimal false n power = .finite false magnitude
  (choose tie lower left d (fits lower) (fits (lower + 1))).map fun n => (n, power)

/-- Digits without the zeros at their end. -/
def trimZeros (ds : List Char) : List Char :=
  (ds.reverse.dropWhile (· = '0')).reverse

def scientific (n : Nat) (power : Int) : Scientific :=
  let ds := Nat.toDigits 10 n
  ⟨trimZeros ds, power + ds.length - 1⟩

/-- The shortest decimal that reads back as a positive magnitude. Seventeen digits always do. -/
def ofMagnitude (tie : Tie) (magnitude : Fin (2047 * Nat.pow 2 52)) : Scientific :=
  if magnitude.val = 0 then ⟨['0'], 0⟩
  else
    match (List.range 17).findSome? fun i => withDigits tie magnitude (i + 1) with
    | some (n, power) => scientific n power
    | none => ⟨['0'], 0⟩

end ProtoSchema.Shortest
