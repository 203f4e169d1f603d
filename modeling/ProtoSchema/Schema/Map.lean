import ProtoSchema.Schema.Message

/-!
Map fields: a map is a repeated field of pairs, and the pair type is a message made for it.
-/

namespace ProtoSchema

/-- The type of a field as written: a scalar type or a name. -/
structure TypeRef where
  type : Option FieldType := none
  typeName : Option String := none
deriving DecidableEq, Repr

def upperAscii (c : Char) : Char :=
  if 'a' ≤ c && c ≤ 'z' then Char.ofNat (c.toNat - 32) else c

/-- Joins the words of a name, each with a capital. `capital` tells whether a word begins. -/
def camelChars (capital : Bool) : List Char → List Char
  | [] => []
  | '_' :: cs => camelChars true cs
  | c :: cs => (if capital then upperAscii c else c) :: camelChars false cs

/-- The name of a map field's pair type: `foo_bar` has `FooBarEntry`. -/
def mapEntryName (fieldName : String) : String :=
  String.ofList (camelChars true fieldName.toList) ++ "Entry"

def mapEntry (name : String) (key value : TypeRef) : Message where
  name := name
  fields :=
    [{ name := "key", number := 1, label := .optional, type := key.type,
       typeName := key.typeName },
     { name := "value", number := 2, label := .optional, type := value.type,
       typeName := value.typeName }]
  options := [⟨"map_entry", .identifier "true"⟩]

end ProtoSchema
