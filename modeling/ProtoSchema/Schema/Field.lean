import ProtoSchema.Schema.Option

/-!
Fields and the types they can have.
-/

namespace ProtoSchema

/-- The revision of the language that a file is written in. -/
inductive Dialect where
  | proto2
  | proto3
deriving DecidableEq, Repr

namespace Dialect

def keyword : Dialect → String
  | proto2 => "proto2"
  | proto3 => "proto3"

def ofKeyword? (word : String) : Option Dialect :=
  if word = "proto2" then some proto2
  else if word = "proto3" then some proto3
  else none

end Dialect

inductive Label where
  | optional
  | required
  | repeated
deriving DecidableEq, Repr

namespace Label

def keyword : Label → String
  | optional => "optional"
  | required => "required"
  | repeated => "repeated"

def ofKeyword? (word : String) : Option Label :=
  [optional, required, repeated].find? fun l => l.keyword = word

end Label

/-- The type of a field's values. Which of `message` and `enum` a named type is becomes known only
when the name is resolved. -/
inductive FieldType where
  | double
  | float
  | int64
  | uint64
  | int32
  | fixed64
  | fixed32
  | bool
  | string
  | bytes
  | uint32
  | sfixed32
  | sfixed64
  | sint32
  | sint64
  | message
  | enum
deriving DecidableEq, Repr

namespace FieldType

/-- The types that have a keyword of their own. -/
def scalars : List FieldType :=
  [double, float, int64, uint64, int32, fixed64, fixed32, bool, string, bytes, uint32, sfixed32,
    sfixed64, sint32, sint64]

def name : FieldType → String
  | double => "double"
  | float => "float"
  | int64 => "int64"
  | uint64 => "uint64"
  | int32 => "int32"
  | fixed64 => "fixed64"
  | fixed32 => "fixed32"
  | bool => "bool"
  | string => "string"
  | bytes => "bytes"
  | uint32 => "uint32"
  | sfixed32 => "sfixed32"
  | sfixed64 => "sfixed64"
  | sint32 => "sint32"
  | sint64 => "sint64"
  | message => "message"
  | enum => "enum"

def ofName? (word : String) : Option FieldType :=
  (scalars ++ [message, enum]).find? fun t => t.name = word

def keyword? (t : FieldType) : Option String :=
  match t with
  | message | enum => none
  | t => some t.name

def ofKeyword? (word : String) : Option FieldType :=
  scalars.find? fun t => t.name = word

def isUnsigned (t : FieldType) : Bool :=
  t ∈ [uint32, uint64, fixed32, fixed64]

def isInteger (t : FieldType) : Bool :=
  t ∈ [int32, int64, uint32, uint64, sint32, sint64, fixed32, fixed64, sfixed32, sfixed64]

end FieldType

structure Field where
  name : String
  number : Int32
  label : Label
  /-- A scalar type, or the kind of the named type once it is known. -/
  type : Option FieldType := none
  /-- The named type as written; led by a dot and in full once it is resolved. -/
  typeName : Option String := none
  /-- The message that an extension extends. -/
  extendee : Option String := none
  /-- The default as text. -/
  defaultValue : Option String := none
  /-- The place of the field's oneof in the message's list of oneofs. -/
  oneofIndex : Option Nat := none
  jsonName : Option String := none
  /-- Whether a `proto3` file marks the field `optional`. -/
  proto3Optional : Bool := false
  options : Options := []
deriving DecidableEq, Repr

namespace Field

def maxNumber : Int32 :=
  536870911

def isRepeated (f : Field) : Bool :=
  f.label = .repeated

end Field

end ProtoSchema
