/-!
Double-precision numbers, exactly: every finite double is an integer times a power of two, and a
decimal is read as the double nearest to it, the even one of two equally near.
-/

namespace ProtoSchema

/-- A double. The magnitudes of the finite ones, in increasing order, are numbered from zero: a
magnitude is its exponent field followed by its 52-bit fraction. -/
inductive Double where
  | nan
  | infinite (negative : Bool)
  | finite (negative : Bool) (magnitude : Fin (2047 * Nat.pow 2 52))
deriving DecidableEq, Repr

namespace Double

/-- The integer factor of a finite magnitude. -/
def significand (magnitude : Nat) : Nat :=
  if magnitude / Nat.pow 2 52 = 0 then magnitude else Nat.pow 2 52 + magnitude % Nat.pow 2 52

/-- The exponent of the power of two of a finite magnitude, raised by 1074. -/
def scale (magnitude : Nat) : Nat :=
  magnitude / Nat.pow 2 52 - 1

/-- A finite magnitude as a fraction. -/
def ratio (magnitude : Nat) : Nat × Nat :=
  (significand magnitude * Nat.pow 2 (scale magnitude), Nat.pow 2 1074)

def zero (negative : Bool) : Double :=
  .finite negative ⟨0, by decide⟩

def neg : Double → Double
  | nan => nan
  | infinite negative => infinite (!negative)
  | finite negative magnitude => finite (!negative) magnitude

/-- The integer nearest to `num / den`, the even one of two equally near. -/
def roundDiv (num den : Nat) : Nat :=
  let q := num / den
  let twice := 2 * (num % den)
  if den < twice ∨ (den = twice ∧ q % 2 = 1) then q + 1 else q

/-- The double of a magnitude; past the last finite one it is infinite. -/
def ofMagnitude (negative : Bool) (magnitude : Nat) : Double :=
  if h : magnitude < 2047 * Nat.pow 2 52 then finite negative ⟨magnitude, h⟩ else infinite negative

/-- The scale at which a positive fraction, times `2 ^ 1074`, has a 53-bit integer part. -/
def scaleOf (num den : Nat) : Nat :=
  let s := num.log2 - den.log2 - 53
  if num / (den * Nat.pow 2 s) < Nat.pow 2 53 then s else s + 1

/-- The magnitude nearest to `num / den`. -/
def nearest (num den : Nat) : Nat :=
  let num := num * Nat.pow 2 1074
  let s := scaleOf num den
  s * Nat.pow 2 52 + roundDiv num (den * Nat.pow 2 s)

/-- The double nearest to `num / den`. -/
def ofRatio (negative : Bool) (num den : Nat) : Double :=
  ofMagnitude negative (nearest num den)

/-- The magnitude nearest to the product of two. -/
def product (a b : Nat) : Nat :=
  nearest ((ratio a).1 * (ratio b).1) ((ratio a).2 * (ratio b).2)

/-- The magnitude nearest to the quotient of two. -/
def quotient (a b : Nat) : Nat :=
  nearest ((ratio a).1 * (ratio b).2) ((ratio a).2 * (ratio b).1)

/-- How many decimal digits a positive number has. -/
def digitCount (n : Nat) : Nat :=
  (Nat.toDigits 10 n).length

/-- The double nearest to `digits * 10 ^ exponent`. Far out of range there is nothing to compute. -/
def ofDecimal (negative : Bool) (digits : Nat) (exponent : Int) : Double :=
  if digits = 0 then zero negative
  else
    let size := (digitCount digits : Int) + exponent
    if 400 < size then infinite negative
    else if size < -400 then zero negative
    else ofRatio negative (digits * Nat.pow 10 exponent.toNat) (Nat.pow 10 (-exponent).toNat)

end Double

end ProtoSchema
