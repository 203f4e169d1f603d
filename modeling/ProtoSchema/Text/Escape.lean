import ProtoSchema.Text.Utf8

/-!
String literals: `escape` writes bytes so that they can stand between quotes, `unescape` reads the
raw text of a literal, quotes included, back into bytes.
-/

namespace ProtoSchema.Escape

def isOctal (c : Char) : Bool :=
  '0' ≤ c && c ≤ '7'

def hexValue? (c : Char) : Option Nat :=
  if '0' ≤ c && c ≤ '9' then some (c.toNat - '0'.toNat)
  else if 'a' ≤ c && c ≤ 'f' then some (c.toNat - 'a'.toNat + 10)
  else if 'A' ≤ c && c ≤ 'F' then some (c.toNat - 'A'.toNat + 10)
  else none

def isHex (c : Char) : Bool :=
  (hexValue? c).isSome

def octalDigit (n : Nat) : Char :=
  Char.ofNat ('0'.toNat + n % 8)

def octal (n : Nat) : List Char :=
  ['\\', octalDigit (n / 64), octalDigit (n / 8), octalDigit n]

def escapeChar (c : Char) : List Char :=
  match c with
  | '\n' => ['\\', 'n']
  | '\r' => ['\\', 'r']
  | '\t' => ['\\', 't']
  | '\\' => ['\\', '\\']
  | '"' => ['\\', '"']
  | '\'' => ['\\', '\'']
  | c => if c.toNat < 0x20 || c.toNat == 0x7F then octal c.toNat else [c]

def escapePiece : Utf8.Piece → List Char
  | .char c => escapeChar c
  | .malformed bs => bs.flatMap fun b => octal b.toNat

/-- Bytes as the inside of a string literal: characters stay readable, quotes, backslashes and
control characters are escaped, and bytes that are no text become octal escapes. -/
def escapeChars (bs : List UInt8) : List Char :=
  (Utf8.pieces bs).flatMap escapePiece

def escape (bs : List UInt8) : String :=
  String.ofList (escapeChars bs)

def byteChar (b : UInt8) : Char :=
  Char.ofNat b.toNat

/-- At most `width` leading bytes that satisfy `p`. -/
def digits (p : Char → Bool) (width : Nat) (bs : List UInt8) : List Char :=
  ((bs.take width).map byteChar).takeWhile p

/-- The number written by digits in the given base. -/
def value (base : Nat) (ds : List Char) : Nat :=
  ds.foldl (fun n d => n * base + (hexValue? d).getD 0) 0

/-- The character with the given number, or the replacement character if there is none. -/
def scalar (n : Nat) : Char :=
  if n.isValidChar then Char.ofNat n else Utf8.replacement

/-- The bytes denoted by an escape whose backslash is followed by `e`, and how many of the bytes
after `e` belong to it. -/
def denotes (e : UInt8) (rest : List UInt8) : List UInt8 × Nat :=
  match byteChar e with
  | 'a' => ([0x07], 0)
  | 'b' => ([0x08], 0)
  | 'f' => ([0x0C], 0)
  | 'n' => ([0x0A], 0)
  | 'r' => ([0x0D], 0)
  | 't' => ([0x09], 0)
  | 'v' => ([0x0B], 0)
  | '\\' => ([e], 0)
  | '?' => ([e], 0)
  | '\'' => ([e], 0)
  | '"' => ([e], 0)
  | 'x' | 'X' =>
    let ds := digits isHex 2 rest
    ([UInt8.ofNat (value 16 ds)], ds.length)
  | 'u' =>
    let ds := digits isHex 4 rest
    (String.utf8EncodeChar (scalar (value 16 ds)), ds.length)
  | 'U' =>
    let ds := digits isHex 8 rest
    (String.utf8EncodeChar (scalar (value 16 ds)), ds.length)
  | c =>
    if isOctal c then
      let ds := digits isOctal 2 rest
      ([UInt8.ofNat (value 8 (c :: ds))], ds.length)
    else ([0x5C, e], 0)

/-- The bytes denoted by what follows the opening quote, up to the closing one. -/
def unescapeBody (quote : UInt8) : List UInt8 → List UInt8
  | [] => []
  | b :: rest =>
    if b == quote then []
    else if b == 0x5C then
      match rest with
      | [] => [b]
      | e :: rest => (denotes e rest).1 ++ unescapeBody quote (rest.drop (denotes e rest).2)
    else b :: unescapeBody quote rest
termination_by bs => bs.length
decreasing_by
  · simp only [List.length_cons, List.length_drop]; omega
  · simp only [List.length_cons]; omega

/-- The bytes denoted by the raw text of a literal. The first byte is the quote. -/
def unescapeBytes : List UInt8 → List UInt8
  | [] => []
  | quote :: rest => unescapeBody quote rest

def unescape (text : String) : List UInt8 :=
  unescapeBytes (Utf8.bytes text)

end ProtoSchema.Escape
