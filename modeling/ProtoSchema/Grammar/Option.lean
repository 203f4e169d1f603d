import ProtoSchema.Grammar.Literal
import ProtoSchema.Schema.Option

/-!
Options and their values.
-/

namespace ProtoSchema

namespace Cursor

/-- The tokens up to the brace that closes an aggregate, out of `depth` further braces inside it;
nothing if the input ends before. -/
def takeAggregate (depth : Nat) (c : Cursor) : Option (List String) × Cursor :=
  if _h : c.ahead = [] then (none, c)
  else if c.current.isSymbol "\x7d" then
    match depth with
    | 0 => (some [], c.bump)
    | depth + 1 =>
      let (rest, d) := takeAggregate depth c.bump
      (rest.map (c.current.text :: ·), d)
  else
    let inner := if c.current.isSymbol "\x7b" then depth + 1 else depth
    let (rest, d) := takeAggregate inner c.bump
    (rest.map (c.current.text :: ·), d)
termination_by c.ahead.length
decreasing_by all_goals exact bump_ahead_lt _h

theorem takeAggregate_onward (depth : Nat) (c : Cursor) :
    c.Onward (c.takeAggregate depth).2 := by
  fun_induction takeAggregate depth c with
  | case1 => exact .refl _
  | case2 c => exact c.bump_onward
  | case3 c _ _ _ rest d heq ih =>
    rw [heq] at ih
    exact c.bump_onward.trans ih
  | case4 _ c _ _ _ rest d heq ih =>
    rw [heq] at ih
    exact c.bump_onward.trans ih

end Cursor

/-- A float literal without the letters at its end. -/
def trimFloatMark (text : String) : List Char :=
  (text.toList.reverse.dropWhile fun c => c = 'f' || c = 'F').reverse

/-- The value of a float literal. One that is no number was reported when it was read and counts
as zero. -/
def floatValue (text : String) : Double :=
  (Double.ofLiteral? (trimFloatMark text)).getD (.zero false)

namespace Production

variable {σ : Type}

def aggregate : Production σ OptionValue := do
  let _ ← bump
  match ← move (Cursor.takeAggregate 0) (Cursor.takeAggregate_onward 0) with
  | some texts => return .aggregate (" ".intercalate texts)
  | none => rejectHere .unclosedAggregate

/-- What may stand behind a minus sign at `start`. -/
def negativeValue (start : Position) : Production σ OptionValue := do
  let token ← peek
  if token.kind = .integer then
    let value ← integer "integer"
    if Nat.pow 2 63 < value then reject start .integerRange
    else return .int (Int64.ofInt (-(value : Int)))
  else if token.kind = .float then
    let _ ← bump
    return .float (floatValue token.text).neg
  else if token.isWord "inf" then
    let _ ← bump
    return .float (.infinite true)
  else if token.isWord "nan" then
    let _ ← bump
    return .float .nan
  else expected "number"

def optionValue : Production σ OptionValue := do
  let start ← here
  if ← eatSymbol "-" then negativeValue start
  else
    let token ← peek
    match token.kind with
    | .integer =>
      let value ← integer "integer"
      return .uint (UInt64.ofNat value)
    | .float =>
      let _ ← bump
      return .float (floatValue token.text)
    | .string =>
      let bytes ← stringBytes "string"
      return .string (Utf8.lossy bytes)
    | .identifier =>
      let _ ← bump
      if token.text = "inf" then return .float (.infinite false)
      else if token.text = "nan" then return .float .nan
      else return .identifier token.text
    | _ => if token.isSymbol "\x7b" then aggregate else expected "option value"

/-- A part of an option's name: a plain name, or the name of an extension in parentheses. -/
def optionNamePart : Production σ String := do
  if ← eatSymbol "(" then
    let name ← typeName
    symbol ")"
    return "(" ++ name ++ ")"
  else
    identifier "option name"

def optionName : Production σ String := do
  let parts ← sepBy "." optionNamePart
  return ".".intercalate parts

def setting : Production σ Setting := do
  let name ← optionName
  symbol "="
  let value ← optionValue
  return ⟨name, value⟩

/-- A statement that sets an option of the declaration around it. -/
def optionStatement (add : Setting → σ → σ) : Production σ Unit := do
  let _ ← bump
  let s ← setting
  endOfStatement
  edit (add s)

def bracketedOptions : Production σ Options := do
  symbol "["
  let settings ← sepBy "," setting
  symbol "]"
  return settings

def optionalOptions : Production σ Options := do
  if ← atSymbol "[" then bracketedOptions else return []

end Production

end ProtoSchema
