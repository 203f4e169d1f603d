import ProtoSchema.Text.Escape

/-!
The values of integer literals, up to the largest 64-bit number.
-/

namespace ProtoSchema

inductive IntegerError where
  | malformed
  | overflow
deriving DecidableEq, Repr

namespace IntegerLiteral

/-- The first number that is too large. -/
def limit : Nat :=
  Nat.pow 2 64

def digitValue? (base : Nat) (c : Char) : Option Nat :=
  (Escape.hexValue? c).filter (· < base)

/-- Reads digits from the left. Whichever comes first decides, a digit that is none of the base's
or the digit that makes the number too large. -/
def digitsFrom (base : Nat) (n : Nat) : List Char → Except IntegerError Nat
  | [] => .ok n
  | c :: cs =>
    match digitValue? base c with
    | none => .error .malformed
    | some d => if n * base + d < limit then digitsFrom base (n * base + d) cs else .error .overflow

def digits (base : Nat) (cs : List Char) : Except IntegerError Nat :=
  if cs.isEmpty then .error .malformed else digitsFrom base 0 cs

/-- The value of a literal: hexadecimal after `0x`, octal after another leading zero, and otherwise
decimal. -/
def value (cs : List Char) : Except IntegerError Nat :=
  match cs with
  | '0' :: 'x' :: ds => digits 16 ds
  | '0' :: 'X' :: ds => digits 16 ds
  | '0' :: d :: ds => digits 8 (d :: ds)
  | ds => digits 10 ds

end IntegerLiteral

end ProtoSchema
