import ProtoSchema.Decimal.Layout
import ProtoSchema.Text.Escape

/-!
Options: named values set on a declaration, kept in the order in which they were written.
-/

namespace ProtoSchema

inductive OptionValue where
  | identifier (name : String)
  /-- An integer written without a sign. -/
  | uint (value : UInt64)
  /-- An integer written with a minus sign. -/
  | int (value : Int64)
  | float (value : Double)
  | string (value : String)
  /-- A message literal: its tokens, without the braces around them. -/
  | aggregate (text : String)
deriving DecidableEq, Repr

namespace OptionValue

def bool? : OptionValue → Option Bool
  | identifier "true" => some true
  | identifier "false" => some false
  | _ => none

/-- Doubles in a schema text: plain from `1e-4` up to `1e16`, and an exponent has no plus sign. -/
def doubleFormat : DoubleFormat :=
  ⟨-4, 15, [], .up⟩

def render : OptionValue → String
  | identifier name => name
  | uint value => toString value.toNat
  | int value => toString value.toInt
  | float value => String.ofList (doubleFormat.spell value)
  | string value => "\"" ++ Escape.escape (Utf8.bytes value) ++ "\""
  | aggregate text => "\x7b " ++ text ++ " \x7d"

end OptionValue

/-- One option and the value given to it. The name is kept as written, such as `deprecated` or
`(my.extension).field`. -/
structure Setting where
  name : String
  value : OptionValue
deriving DecidableEq, Repr

abbrev Options := List Setting

namespace Options

/-- The value last given to an option. -/
def get? (options : Options) (name : String) : Option OptionValue :=
  (options.reverse.find? fun s => s.name = name).map Setting.value

def isSet (options : Options) (name : String) : Bool :=
  ((get? options name).bind OptionValue.bool?) == some true

end Options

end ProtoSchema
