import ProtoSchema.LinkedFile

/-!
The shapes of values that fields hold.
-/

namespace ProtoSchema

/-- The shape of a single value. Types are named in full, led by a dot. -/
inductive Shape where
  | message (typeName : String)
  | enum (typeName : String)
  | string
  /-- Any other scalar, bytes among them. -/
  | primitive (type : FieldType)
deriving DecidableEq, Repr

inductive FieldShape where
  | single (value : Shape)
  | repeated (element : Shape)
  /-- A member of the declared oneof at `index`. -/
  | oneofMember (index : Nat) (value : Shape)
  | map (key value : Shape)
deriving DecidableEq, Repr

namespace Shape

def of (f : Field) : Shape :=
  match f.type with
  | some .enum => enum (f.typeName.getD "")
  | some .string => string
  | some .message | none => message (f.typeName.getD "")
  | some type => primitive type

end Shape

namespace LinkedFile

def mapEntry? (file : LinkedFile) (f : Field) : Option Message :=
  if f.type = some .message ∧ f.isRepeated then
    let found := (f.typeName.bind file.find?).bind fun (_, d) => d.declaration.message?
    found.filter Message.isMapEntry
  else none

def shape (file : LinkedFile) (f : Field) : FieldShape :=
  match f.oneofIndex.filter fun _ => !f.proto3Optional with
  | some index => .oneofMember index (.of f)
  | none =>
    if f.isRepeated then
      match (file.mapEntry? f).map Message.fields with
      | some [key, value] => .map (.of key) (.of value)
      | _ => .repeated (.of f)
    else .single (.of f)

end LinkedFile

end ProtoSchema
