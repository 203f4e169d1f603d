import ProtoSchema.Grammar.Option
import ProtoSchema.Grammar.Recovery
import ProtoSchema.Schema.Message

/-!
Enums, and the reserved names and numbers of enums and messages.
-/

namespace ProtoSchema

/-- The number after `n`, where there is one. -/
def afterNumber (n : Int32) : Int32 :=
  if n = Int32.maxValue then n else n + 1

/-- How reserved numbers are written and kept in one kind of declaration. -/
structure ReservedRules where
  /-- Whether numbers may be negative. -/
  allowSign : Bool
  /-- What a number stands for. -/
  what : String
  /-- The number that `max` stands for. -/
  max : Int32
  /-- The end of a range as it is kept, from the last number of the range. -/
  stop : Int32 → Int32

namespace ReservedRules

/-- The end of a range of field numbers is kept as the number after it. -/
def message : ReservedRules :=
  ⟨false, "field number", Field.maxNumber, afterNumber⟩

/-- The end of a range of enum numbers is kept as its last number. -/
def enum : ReservedRules :=
  ⟨true, "enum value", Int32.maxValue, id⟩

end ReservedRules

namespace Production

variable {σ : Type}

/-- The last number of a range that begins with `start`. -/
def rangeEnd (rules : ReservedRules) (start : Int32) : Production σ Int32 := do
  if ← eatWord "to" then
    if ← eatWord "max" then return rules.max else int32 rules.allowSign rules.what
  else return start

def reservedName (add : String → σ → σ) : Production σ Unit := do
  if (← atKind .integer) || (← atSymbol "-") then rejectHere .mixedReserved
  else
    let name ← utf8String "reserved name"
    edit (add name)

def reservedRange (rules : ReservedRules) (add : ReservedRange → σ → σ) : Production σ Unit := do
  if ← atKind .string then rejectHere .mixedReserved
  else
    let start ← int32 rules.allowSign rules.what
    let last ← rangeEnd rules start
    edit (add ⟨start, rules.stop last⟩)

/-- Reserved names or reserved numbers, not both. -/
def reservedStatement (rules : ReservedRules) (addRange : ReservedRange → σ → σ)
    (addName : String → σ → σ) : Production σ Unit := do
  let _ ← bump
  if ← atKind .string then
    let _ ← sepBy "," (reservedName addName)
    endOfStatement
  else
    let _ ← sepBy "," (reservedRange rules addRange)
    endOfStatement

def enumValue (path : List Int) : Production Enum Unit := do
  let start ← here
  let name ← identifier "enum constant name"
  symbol "="
  let number ← int32 true "integer"
  let options ← optionalOptions
  endOfStatement
  record (Location.child path Location.enumValue (← built).values.length) start
  edit fun e => { e with values := e.values ++ [⟨name, number, options⟩] }

def enumStatement (path : List Int) : Production Enum Unit := do
  if ← eatSymbol ";" then return ()
  else if ← atWord "option" then
    optionStatement fun s e => { e with options := e.options ++ [s] }
  else if ← atWord "reserved" then
    reservedStatement .enum (fun r e => { e with reservedRanges := e.reservedRanges ++ [r] })
      fun n e => { e with reservedNames := e.reservedNames ++ [n] }
  else enumValue path

def enum (recovery : Recovery) (path : List Int) : Production σ Enum := do
  let start ← here
  let _ ← bump
  let name ← identifier "enum name"
  symbol "\x7b"
  let e ← build ({ name } : Enum) (block recovery "enum" (enumStatement path))
  record path start
  return e

end Production

end ProtoSchema
