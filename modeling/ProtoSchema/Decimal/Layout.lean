import ProtoSchema.Decimal.Shortest

/-!
How a double is spelled: plainly, with at least one digit on each side of the point, or with an
exponent when it is very large or very small.
-/

namespace ProtoSchema

/-- The choices a spelling of doubles makes. -/
structure DoubleFormat where
  /-- The smallest exponent written plainly. -/
  leastPlain : Int
  /-- The largest exponent written plainly. -/
  mostPlain : Int
  /-- What a positive exponent is led by. -/
  plus : List Char
  tie : Shortest.Tie

namespace DoubleFormat

def plain (ds : List Char) (exponent : Int) : List Char :=
  if exponent < 0 then
    '0' :: '.' :: List.replicate ((-exponent).toNat - 1) '0' ++ ds
  else
    let whole := exponent.toNat + 1
    if ds.length ≤ whole then ds ++ List.replicate (whole - ds.length) '0' ++ ['.', '0']
    else ds.take whole ++ '.' :: ds.drop whole

def withExponent (f : DoubleFormat) (ds : List Char) (exponent : Int) : List Char :=
  let fraction := ds.drop 1
  let mantissa := ds.take 1 ++ if fraction.isEmpty then [] else '.' :: fraction
  let sign := if exponent < 0 then ['-'] else f.plus
  mantissa ++ 'e' :: sign ++ Nat.toDigits 10 exponent.natAbs

def spell (f : DoubleFormat) : Double → List Char
  | .nan => "nan".toList
  | .infinite negative => if negative then "-inf".toList else "inf".toList
  | .finite negative magnitude =>
    let s := Shortest.ofMagnitude f.tie magnitude
    let body :=
      if f.leastPlain ≤ s.exponent ∧ s.exponent ≤ f.mostPlain then plain s.digits s.exponent
      else f.withExponent s.digits s.exponent
    if negative then '-' :: body else body

end DoubleFormat

namespace Double

/-! ## Reading -/

def digitValue (c : Char) : Nat :=
  c.toNat - '0'.toNat

def natOfDigits (ds : List Char) : Nat :=
  ds.foldl (fun n d => n * 10 + digitValue d) 0

/-- The exponent after the mantissa of a literal: none at all, or a mark, a sign and digits. -/
def exponent? : List Char → Option Int
  | [] => some 0
  | _ :: '-' :: ds => if ds.isEmpty then none else some (-(natOfDigits ds : Int))
  | _ :: '+' :: ds => if ds.isEmpty then none else some (natOfDigits ds)
  | _ :: ds => if ds.isEmpty then none else some (natOfDigits ds)

/-- The double nearest to a literal: digits, a fraction and an exponent, each of which may be
missing. A mark of the exponent without digits after it is no literal. -/
def ofLiteral? (cs : List Char) : Option Double :=
  let isDigit (c : Char) : Bool := '0' ≤ c && c ≤ '9'
  let whole := cs.takeWhile isDigit
  let afterWhole := cs.dropWhile isDigit
  let (fraction, rest) :=
    match afterWhole with
    | '.' :: ds => (ds.takeWhile isDigit, ds.dropWhile isDigit)
    | ds => ([], ds)
  (exponent? rest).map fun e =>
    ofDecimal false (natOfDigits (whole ++ fraction)) (e - fraction.length)

end Double

end ProtoSchema
