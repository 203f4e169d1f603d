import ProtoSchema.Grammar.Option
import ProtoSchema.Schema.Map

/-!
Fields, with their labels, types, numbers and options.
-/

namespace ProtoSchema

/-- The largest magnitude of a default of an integer type with the given sign. -/
def FieldType.integerLimit (type : FieldType) (negative : Bool) : Nat :=
  match type with
  | .int32 | .sint32 | .sfixed32 => if negative then Nat.pow 2 31 else Nat.pow 2 31 - 1
  | .uint32 | .fixed32 => Nat.pow 2 32 - 1
  | .int64 | .sint64 | .sfixed64 => if negative then Nat.pow 2 63 else Nat.pow 2 63 - 1
  | _ => Nat.pow 2 64 - 1

namespace Production

variable {σ : Type}

/-! ## Types -/

def fieldType : Production σ TypeRef := do
  let token ← peek
  match if token.kind = .identifier then FieldType.ofKeyword? token.text else none with
  | some type =>
    let _ ← bump
    return { type := some type }
  | none => return { typeName := some (← typeName) }

/-- The key and value types of a map. -/
def mapTypes : Production σ (TypeRef × TypeRef) := do
  symbol "<"
  let key ← fieldType
  symbol ","
  let value ← fieldType
  symbol ">"
  return (key, value)

/-- The type of a field: an ordinary type, or the two types of a map. `map` alone is a name. -/
def declaredType : Production σ (TypeRef ⊕ TypeRef × TypeRef) := do
  if ← eatWord "map" then
    if ← atSymbol "<" then return .inr (← mapTypes)
    else return .inl { typeName := some (← restOfName "map") }
  else return .inl (← fieldType)

/-! ## Defaults -/

/-- A default with the sign it was written with. -/
def signedText (negative : Bool) (text : String) : String :=
  if negative then "-" ++ text else text

/-- The default of a floating-point field, as it was written. -/
def floatDefault : Production σ String := do
  let negative ← eatSymbol "-"
  let token ← peek
  if token.kind = .integer then
    let value ← integer "number"
    return signedText negative (toString value)
  else if token.kind = .float then
    let _ ← bump
    return signedText negative (String.ofList (trimFloatMark token.text))
  else if token.isWord "inf" || token.isWord "nan" then
    let _ ← bump
    return signedText negative token.text
  else expected "number"

/-- The default of an integer field, in decimal. -/
def integerDefault (type : FieldType) : Production σ String := do
  let start ← here
  let negative ← eatSymbol "-"
  if negative && type.isUnsigned then reject start .negativeDefault
  else
    let value ← integer "integer"
    if type.integerLimit negative < value then reject start .integerRange
    else return signedText negative (toString value)

/-- The default of a field of the given type. A named type can only be an enum here. -/
def defaultValue (type : Option FieldType) : Production σ String := do
  match type with
  | none =>
    if ← atKind .identifier then return (← bump).text else rejectHere .enumDefault
  | some .string => utf8String "string"
  | some .bytes =>
    let bytes ← stringBytes "string"
    return Escape.escape bytes
  | some .bool =>
    let token ← peek
    if token.isWord "true" || token.isWord "false" then
      let _ ← bump
      return token.text
    else expected "\"true\" or \"false\""
  | some .float => floatDefault
  | some .double => floatDefault
  | some .message => rejectHere .messageDefault
  | some .enum => rejectHere .messageDefault
  | some type => integerDefault type

/-! ## Options -/

/-- One option of a field. The default and the JSON name are part of the field itself. -/
def fieldOption (dialect : Dialect) : Production Field Unit := do
  let start ← here
  if ← eatWord "default" then
    symbol "="
    if dialect = .proto3 then report start .defaultForbidden
    let field ← built
    if field.defaultValue.isSome then report start (.alreadySet "default")
    let value ← defaultValue field.type
    edit fun f => { f with defaultValue := some value }
  else if ← eatWord "json_name" then
    symbol "="
    if (← built).jsonName.isSome then report start (.alreadySet "json_name")
    let name ← utf8String "string"
    edit fun f => { f with jsonName := some name }
  else
    let s ← setting
    edit fun f => { f with options := f.options ++ [s] }

def fieldOptions (dialect : Dialect) : Production Field Unit := do
  symbol "["
  let _ ← sepBy "," (fieldOption dialect)
  symbol "]"

/-! ## Fields -/

/-- The label in front of a field, if there is one. -/
def label? : Production σ (Option Label) := do
  let token ← peek
  match if token.kind = .identifier then Label.ofKeyword? token.text else none with
  | some label =>
    let _ ← bump
    return some label
  | none => return none

/-- Reports a label that is missing or may not stand here. -/
def checkLabel (dialect : Dialect) (inOneof : Bool) (start : Position) (label : Option Label) :
    Production σ Unit := do
  if inOneof && label.isSome then report start .labelInOneof
  else if label.isNone && !inOneof && dialect = .proto2 then
    if !(← atWord "map") then report (← here) .missingLabel
  if label = some .required && dialect = .proto3 then report start .requiredField

/-- The field that a declaration states, and the pair type made for it if it is a map. -/
def declaredField (dialect : Dialect) (inOneof : Bool) (label : Option Label) (name : String)
    (number : Int32) : TypeRef ⊕ TypeRef × TypeRef → Field × Option Message
  | .inl type =>
    ({ name := name, number := number, label := label.getD .optional, type := type.type,
       typeName := type.typeName,
       proto3Optional := label = some .optional && dialect = .proto3 && !inOneof }, none)
  | .inr (key, value) =>
    ({ name := name, number := number, label := .repeated,
       typeName := some (mapEntryName name) },
     some (mapEntry (mapEntryName name) key value))

/-- A field with its pair type if it is a map. -/
def field (dialect : Dialect) (path : List Int) (inOneof : Bool) :
    Production σ (Field × Option Message) := do
  let start ← here
  let label ← label?
  checkLabel dialect inOneof start label
  if ← atWord "group" then rejectHere .groupField
  let type ← declaredType
  let name ← identifier "field name"
  symbol "="
  let number ← fieldNumber
  let (bare, entry) := declaredField dialect inOneof label name number type
  if entry.isSome && label.isSome then report start .labelOnMap
  if entry.isSome && inOneof then report start .mapInOneof
  let f ← if ← atSymbol "[" then build bare (fieldOptions dialect) else pure bare
  endOfStatement
  record path start
  return (f, entry)

/-- The fields of an `extend` block. -/
def extendStatement (dialect : Dialect) (extendee : String) (parent : List Int) :
    Production (List Field) Unit := do
  if ← eatSymbol ";" then return ()
  else
    let start ← here
    let path := parent ++ [Int.ofNat (← built).length]
    let (f, entry) ← field dialect path false
    if entry.isSome then report start .mapExtension
    edit (· ++ [{ f with extendee := some extendee }])

end Production

end ProtoSchema
