import ProtoSchema.Json
import ProtoSchema.Text.Escape

/-!
Reading JSON texts. A number is an integer if it is written without a fraction and an exponent and
fits 64 bits. Every other number is a double near to it: the digits that fit 64 bits, times a power
of ten, rounded at each step.
-/

namespace ProtoSchema.Json.Read

def isBlank (c : Char) : Bool :=
  c = ' ' || c = '\t' || c = '\n' || c = '\r'

def skipBlanks (cs : List Char) : List Char :=
  cs.dropWhile isBlank

/-! ## Strings -/

/-- The number written by four hexadecimal digits at the front of a text. -/
def unit? (cs : List Char) : Option Nat :=
  let ds := (cs.take 4).takeWhile Escape.isHex
  if ds.length = 4 then some (Escape.value 16 ds) else none

/-- The character denoted by what follows `\u`, and how many characters that takes. A character
beyond the first plane is written as two units. -/
def unicodeEscape? (cs : List Char) : Option (Char × Nat) := do
  let high ← unit? cs
  if 0xD800 ≤ high ∧ high < 0xDC00 then
    match cs.drop 4 with
    | '\\' :: 'u' :: rest =>
      let low ← unit? rest
      if 0xDC00 ≤ low ∧ low < 0xE000 then
        return (Char.ofNat (0x10000 + (high - 0xD800) * 0x400 + (low - 0xDC00)), 10)
      else none
    | _ => none
  else if 0xDC00 ≤ high ∧ high < 0xE000 then none
  else return (Char.ofNat high, 4)

/-- The character denoted by what follows a backslash, and how many characters that takes. -/
def escape? (cs : List Char) : Option (Char × Nat) :=
  match cs with
  | '"' :: _ => some ('"', 1)
  | '\\' :: _ => some ('\\', 1)
  | '/' :: _ => some ('/', 1)
  | 'b' :: _ => some ('\x08', 1)
  | 'f' :: _ => some ('\x0c', 1)
  | 'n' :: _ => some ('\n', 1)
  | 'r' :: _ => some ('\r', 1)
  | 't' :: _ => some ('\t', 1)
  | 'u' :: rest => (unicodeEscape? rest).map fun (c, n) => (c, n + 1)
  | _ => none

/-- What follows an opening quote: the characters of the string and what is left behind it. -/
def stringBody? : List Char → Option (List Char × List Char)
  | [] => none
  | c :: rest =>
    if c = '"' then some ([], rest)
    else if c = '\\' then
      match escape? rest with
      | none => none
      | some (d, n) => (stringBody? (rest.drop n)).map fun (cs, left) => (d :: cs, left)
    else if c.toNat < 0x20 then none
    else (stringBody? rest).map fun (cs, left) => (c :: cs, left)
termination_by cs => cs.length
decreasing_by
  · simp only [List.length_drop, List.length_cons]; omega
  · simp

/-! ## Numbers -/

def isDigit (c : Char) : Bool :=
  '0' ≤ c && c ≤ '9'

def powerOfTen (power : Nat) : Nat :=
  Double.nearest (Nat.pow 10 power) 1

/-- The magnitude of `digits * 10 ^ power`. The digits, the power and the result are rounded one
after the other; a power below the range is taken in two steps. There is none above the range. -/
def scaled? (digits : Nat) (power : Int) : Option Nat :=
  let start := Double.nearest digits 1
  let size := power.natAbs
  if digits = 0 || power < -616 then some 0
  else if power < -308 then
    some (Double.quotient (Double.quotient start (powerOfTen 308)) (powerOfTen (size - 308)))
  else if power < 0 then some (Double.quotient start (powerOfTen size))
  else if power ≤ 308 then some (Double.product start (powerOfTen size))
  else none

def double? (negative : Bool) (digits : Nat) (power : Int) : Option Json :=
  (scaled? digits power).bind fun magnitude =>
    match Double.ofMagnitude negative magnitude with
    | .finite _ m => some (.double (.finite negative m))
    | _ => none

/-- Goes on with a number by further digits as long as it fits 64 bits. The digits from the first
one that does not fit are left. -/
def extend (n : Nat) : List Char → Nat × List Char
  | [] => (n, [])
  | d :: ds =>
    let next := n * 10 + Double.digitValue d
    if next < Nat.pow 2 64 then extend next ds else (n, d :: ds)

/-- The number of some whole digits and some behind the point, and the power of ten it is to be
taken times. -/
def significand (whole fraction : List Char) : Nat × Int :=
  let (n, wholeLeft) := extend 0 whole
  let (n, fractionLeft) := extend n fraction
  (n, (wholeLeft.length : Int) + fractionLeft.length - fraction.length)

/-- The value of a whole number: an integer if it fits 64 bits. -/
def integer? (negative : Bool) (whole : List Char) : Option Json :=
  let n := Double.natOfDigits whole
  if negative && 0 < n && n ≤ Nat.pow 2 63 then some (.int (-(n : Int)))
  else if !negative && n < Nat.pow 2 64 then some (.int n)
  else
    let (digits, power) := significand whole []
    double? negative digits power

/-- The digits behind a point, if there is one, and what is left. -/
def fraction? : List Char → Option (List Char × List Char)
  | '.' :: rest =>
    let ds := rest.takeWhile isDigit
    if ds.isEmpty then none else some (ds, rest.dropWhile isDigit)
  | rest => some ([], rest)

/-- The number that some digits at the front of a text write, and what is left. -/
def digits? (cs : List Char) : Option (Nat × List Char) :=
  let ds := cs.takeWhile isDigit
  if ds.isEmpty then none else some (Double.natOfDigits ds, cs.dropWhile isDigit)

def exponent? : List Char → Option (Int × List Char)
  | '-' :: rest => (digits? rest).map fun (n, left) => (-(n : Int), left)
  | '+' :: rest => (digits? rest).map fun (n, left) => (n, left)
  | rest => (digits? rest).map fun (n, left) => (n, left)

/-- A number without its sign, and what is left. -/
def magnitude? (negative : Bool) (cs : List Char) : Option (Json × List Char) := do
  let whole := cs.takeWhile isDigit
  if whole.isEmpty || (whole.head? = some '0' && 1 < whole.length) then none
  else
    let (fraction, rest) ← fraction? (cs.dropWhile isDigit)
    let (digits, power) := significand whole fraction
    if rest.head? = some 'e' || rest.head? = some 'E' then
      let (e, left) ← exponent? (rest.drop 1)
      return (← double? negative digits (power + e), left)
    else if fraction.isEmpty then return (← integer? negative whole, rest)
    else return (← double? negative digits power, rest)

def number? : List Char → Option (Json × List Char)
  | '-' :: rest => magnitude? true rest
  | rest => magnitude? false rest

/-! ## Values -/

/-- The text behind a word, if it begins with it. -/
def word? : List Char → List Char → Option (List Char)
  | [], cs => some cs
  | w :: ws, c :: cs => if w = c then word? ws cs else none
  | _ :: _, [] => none

mutual

/-- The value at the front of a text, and what is left behind it. -/
def value? : (fuel : Nat) → List Char → Option (Json × List Char)
  | 0, _ => none
  | fuel + 1, cs =>
    match skipBlanks cs with
    | 'n' :: rest => (word? ['u', 'l', 'l'] rest).map fun left => (.null, left)
    | 't' :: rest => (word? ['r', 'u', 'e'] rest).map fun left => (.bool true, left)
    | 'f' :: rest => (word? ['a', 'l', 's', 'e'] rest).map fun left => (.bool false, left)
    | '"' :: rest => (stringBody? rest).map fun (s, left) => (.string (String.ofList s), left)
    | '[' :: rest =>
      match skipBlanks rest with
      | ']' :: left => some (.array [], left)
      | rest => (items? fuel rest).map fun (js, left) => (.array js, left)
    | '\x7b' :: rest =>
      match skipBlanks rest with
      | '\x7d' :: left => some (.object [], left)
      | rest => (members? fuel rest).map fun (ms, left) => (.object ms, left)
    | rest => number? rest

/-- The items of an array, up to and with its closing bracket. -/
def items? : (fuel : Nat) → List Char → Option (List Json × List Char)
  | 0, _ => none
  | fuel + 1, cs =>
    match value? fuel cs with
    | none => none
    | some (j, rest) =>
      match skipBlanks rest with
      | ']' :: left => some ([j], left)
      | ',' :: rest => (items? fuel rest).map fun (js, left) => (j :: js, left)
      | _ => none

/-- The members of an object, up to and with its closing brace. -/
def members? : (fuel : Nat) → List Char → Option (List (String × Json) × List Char)
  | 0, _ => none
  | fuel + 1, cs =>
    match skipBlanks cs with
    | '"' :: rest =>
      match stringBody? rest with
      | none => none
      | some (key, rest) =>
        match skipBlanks rest with
        | ':' :: rest =>
          match value? fuel rest with
          | none => none
          | some (j, rest) =>
            match skipBlanks rest with
            | '\x7d' :: left => some ([(String.ofList key, j)], left)
            | ',' :: rest =>
              (members? fuel rest).map fun (ms, left) => ((String.ofList key, j) :: ms, left)
            | _ => none
        | _ => none
    | _ => none

end

end ProtoSchema.Json.Read

namespace ProtoSchema.Json

/-- The value of a JSON text. Every level of a value takes at least one character. -/
def parse? (text : String) : Option Json :=
  match Read.value? (text.length + 1) text.toList with
  | some (j, rest) => if (Read.skipBlanks rest).isEmpty then some j else none
  | none => none

end ProtoSchema.Json
