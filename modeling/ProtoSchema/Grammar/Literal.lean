import ProtoSchema.Grammar.Production
import ProtoSchema.Token.Integer

/-!
Numbers and strings.
-/

namespace ProtoSchema

namespace Cursor

/-- Adjacent string literals from the current token on, as the bytes of all of them. -/
def takeStrings (c : Cursor) : List UInt8 × Cursor :=
  if c.current.kind = .string then
    let bytes := Escape.unescape c.current.text
    if _h : c.ahead = [] then (bytes, c)
    else
      let (more, d) := takeStrings c.bump
      (bytes ++ more, d)
  else ([], c)
termination_by c.ahead.length
decreasing_by exact bump_ahead_lt _h

theorem takeStrings_onward (c : Cursor) : c.Onward c.takeStrings.2 := by
  fun_induction takeStrings c with
  | case1 => exact .refl _
  | case2 c _ _ _ more d heq ih =>
    rw [heq] at ih
    exact c.bump_onward.trans ih
  | case3 => exact .refl _

end Cursor

namespace Production

variable {σ : Type}

/-- The value of an integer literal. One that is no number at all was reported when it was read. -/
def integer (what : String) : Production σ Nat := do
  let token ← peek
  if token.kind ≠ .integer then expected what
  else
    match IntegerLiteral.value token.text.toList with
    | .ok value =>
      let _ ← bump
      return value
    | .error .overflow =>
      report token.position .integerRange
      let _ ← bump
      fail
    | .error .malformed =>
      let _ ← bump
      fail

/-- The largest magnitude of a 32-bit number with the given sign. -/
def int32Limit (negative : Bool) : Nat :=
  if negative then Nat.pow 2 31 else Nat.pow 2 31 - 1

/-- A value with the sign it was written with. -/
def signed (negative : Bool) (value : Nat) : Int :=
  if negative then -(value : Int) else value

/-- A 32-bit integer, led by a minus sign only where signs are allowed. -/
def int32 (allowSign : Bool) (what : String) : Production σ Int32 := do
  let start ← here
  let negative ← if allowSign then eatSymbol "-" else pure false
  let value ← integer what
  if int32Limit negative < value then reject start .integerRange
  else return Int32.ofInt (signed negative value)

def fieldNumber : Production σ Int32 :=
  int32 false "field number"

/-- One or more adjacent string literals as bytes. -/
def stringBytes (what : String) : Production σ (List UInt8) := do
  if ← atKind .string then move Cursor.takeStrings Cursor.takeStrings_onward
  else expected what

/-- One or more adjacent string literals as text. -/
def utf8String (what : String) : Production σ String := do
  let start ← here
  let bytes ← stringBytes what
  match Utf8.string? bytes with
  | some text => return text
  | none => reject start .notUtf8

end Production

end ProtoSchema
