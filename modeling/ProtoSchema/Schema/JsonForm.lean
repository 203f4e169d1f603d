import ProtoSchema.Json
import ProtoSchema.Schema.File

/-!
The JSON form of a file. Every part is an object with all its members, in a fixed order; a part that
is absent is `null`. Reading takes the members in any order, ignores others, and takes a missing
member for `null` where `null` is allowed. A record may also be given as the list of its members'
values, and a word as an object that has `null` under that word and nothing else.
-/

namespace ProtoSchema

namespace Json

def nullable (f : α → Json) : Option α → Json
  | some a => f a
  | none => .null

def strings (ss : List String) : Json :=
  .array (ss.map .string)

def string? : Json → Option String
  | .string s => some s
  | _ => none

def bool? : Json → Option Bool
  | .bool b => some b
  | _ => none

/-- An integer between two bounds, the upper one not included. -/
def int? (least bound : Int) : Json → Option Int
  | .int n => if least ≤ n ∧ n < bound then some n else none
  | _ => none

def int32? (j : Json) : Option Int32 :=
  (int? (-Int.pow 2 31) (Int.pow 2 31) j).map Int32.ofInt

def int64? (j : Json) : Option Int64 :=
  (int? (-Int.pow 2 63) (Int.pow 2 63) j).map Int64.ofInt

def index? (j : Json) : Option Nat :=
  (int? 0 (Int.pow 2 64) j).map Int.toNat

def uint64? (j : Json) : Option UInt64 :=
  (index? j).map UInt64.ofNat

def double? : Json → Option Double
  | .int n => some (.ofDecimal (n < 0) n.natAbs 0)
  | .double d => some d
  | .string s =>
    if s = "inf" then some (.infinite false)
    else if s = "-inf" then some (.infinite true)
    else if s = "nan" then some .nan
    else none
  | _ => none

def list? (read : Json → Option α) : Json → Option (List α)
  | .array items => items.mapM read
  | _ => none

/-- One of several words, given alone or as the only key of an object, with `null` behind it. -/
def keyword? (read : String → Option α) : Json → Option α
  | .string word => read word
  | .object [(word, .null)] => read word
  | _ => none

/-- The members of a record with the given keys. -/
def record? (keys : List String) : Json → Option (List (String × Json))
  | .object members => some members
  | .array items => if items.length = keys.length then some (keys.zip items) else none
  | _ => none

mutual

/-- How deep values lie inside a value. -/
def height : Json → Nat
  | .array items => heightItems items + 1
  | .object members => heightMembers members + 1
  | _ => 0

def heightItems : List Json → Nat
  | [] => 0
  | j :: js => max j.height (heightItems js)

def heightMembers : List (String × Json) → Nat
  | [] => 0
  | (_, j) :: ms => max j.height (heightMembers ms)

end

end Json

structure Form (α : Type) where
  write : α → Json
  read : Json → Option α

namespace Form

def string : Form String :=
  ⟨.string, Json.string?⟩

def bool : Form Bool :=
  ⟨.bool, Json.bool?⟩

def int32 : Form Int32 :=
  ⟨fun n => .int n.toInt, Json.int32?⟩

def index : Form Nat :=
  ⟨fun n => .int n, Json.index?⟩

def strings : Form (List String) :=
  ⟨Json.strings, Json.list? Json.string?⟩

def keyword (word : α → String) (ofWord? : String → Option α) : Form α :=
  ⟨fun a => .string (word a), Json.keyword? ofWord?⟩

def list (f : Form α) : Form (List α) :=
  ⟨fun as => .array (as.map f.write), Json.list? f.read⟩

def nullable (f : Form α) : Form (Option α) where
  write := Json.nullable f.write
  read
    | .null => some none
    | j => (f.read j).map some

structure Member (ρ : Type) where
  {α : Type}
  key : String
  form : Form α
  get : ρ → α
  set : ρ → α → ρ

/-- A record with the given members, which are read into `init`. A missing one is read as `null`. -/
def record (init : ρ) (members : List (Member ρ)) : Form ρ where
  write r := .object (members.map fun m => (m.key, m.form.write (m.get r)))
  read j := do
    let given ← j.record? (members.map Member.key)
    members.foldlM (fun r m => (m.form.read ((given.lookup m.key).getD .null)).map (m.set r)) init

end Form

open Form

/-! ## Options -/

/-- JSON has no numbers for the infinities and for NaN; those are strings. -/
def Double.toJson (d : Double) : Json :=
  match d with
  | .finite _ _ => .double d
  | d => .string (String.ofList (Json.doubleFormat.spell d))

def OptionValue.toJson : OptionValue → Json
  | .identifier name => .object [("identifier", .string name)]
  | .uint value => .object [("uint", .int value.toNat)]
  | .int value => .object [("int", .int value.toInt)]
  | .float value => .object [("float", value.toJson)]
  | .string value => .object [("string", .string value)]
  | .aggregate text => .object [("aggregate", .string text)]

def OptionValue.ofJson? : Json → Option OptionValue
  | .object [("identifier", j)] => j.string?.map .identifier
  | .object [("uint", j)] => j.uint64?.map .uint
  | .object [("int", j)] => j.int64?.map .int
  | .object [("float", j)] => j.double?.map .float
  | .object [("string", j)] => j.string?.map .string
  | .object [("aggregate", j)] => j.string?.map .aggregate
  | _ => none

def Setting.form : Form Setting :=
  .record ⟨"", .identifier ""⟩
    [⟨"name", string, name, ({ · with name := · })⟩,
      ⟨"value", ⟨OptionValue.toJson, OptionValue.ofJson?⟩, value, ({ · with value := · })⟩]

def Options.form : Form Options :=
  list Setting.form

def Options.toJson (options : Options) : Json :=
  form.write options

/-! ## Declarations -/

def Field.form : Form Field :=
  record { name := "", number := 0, label := .optional }
    [⟨"name", string, name, ({ · with name := · })⟩,
      ⟨"number", int32, number, ({ · with number := · })⟩,
      ⟨"label", keyword Label.keyword Label.ofKeyword?, label, ({ · with label := · })⟩,
      ⟨"ty", nullable (keyword FieldType.name FieldType.ofName?), type, ({ · with type := · })⟩,
      ⟨"type_name", nullable string, typeName, ({ · with typeName := · })⟩,
      ⟨"extendee", nullable string, extendee, ({ · with extendee := · })⟩,
      ⟨"default_value", nullable string, defaultValue, ({ · with defaultValue := · })⟩,
      ⟨"oneof_index", nullable index, oneofIndex, ({ · with oneofIndex := · })⟩,
      ⟨"json_name", nullable string, jsonName, ({ · with jsonName := · })⟩,
      ⟨"proto3_optional", bool, proto3Optional, ({ · with proto3Optional := · })⟩,
      ⟨"options", Options.form, options, ({ · with options := · })⟩]

def Oneof.form : Form Oneof :=
  record { name := "" }
    [⟨"name", string, name, ({ · with name := · })⟩,
      ⟨"fields", list index, fields, ({ · with fields := · })⟩,
      ⟨"options", Options.form, options, ({ · with options := · })⟩]

def ExtensionRange.form : Form ExtensionRange :=
  record { start := 0, stop := 0 }
    [⟨"start", int32, start, ({ · with start := · })⟩,
      ⟨"end", int32, stop, ({ · with stop := · })⟩,
      ⟨"options", Options.form, options, ({ · with options := · })⟩]

def ReservedRange.form : Form ReservedRange :=
  record ⟨0, 0⟩
    [⟨"start", int32, start, ({ · with start := · })⟩,
      ⟨"end", int32, stop, ({ · with stop := · })⟩]

def EnumValue.form : Form EnumValue :=
  record { name := "", number := 0 }
    [⟨"name", string, name, ({ · with name := · })⟩,
      ⟨"number", int32, number, ({ · with number := · })⟩,
      ⟨"options", Options.form, options, ({ · with options := · })⟩]

def Enum.form : Form Enum :=
  record { name := "" }
    [⟨"name", string, name, ({ · with name := · })⟩,
      ⟨"values", list EnumValue.form, values, ({ · with values := · })⟩,
      ⟨"reserved_ranges", list ReservedRange.form, reservedRanges,
        ({ · with reservedRanges := · })⟩,
      ⟨"reserved_names", strings, reservedNames, ({ · with reservedNames := · })⟩,
      ⟨"options", Options.form, options, ({ · with options := · })⟩]

/-- A message, given how the messages nested in it are written and read. -/
def Message.formOver (nestedForm : Form (List Message)) : Form Message :=
  record { name := "" }
    [⟨"name", string, name, ({ · with name := · })⟩,
      ⟨"fields", list Field.form, fields, ({ · with fields := · })⟩,
      ⟨"extensions", list Field.form, extensions, ({ · with extensions := · })⟩,
      ⟨"nested_messages", nestedForm, nested, ({ · with nested := · })⟩,
      ⟨"enums", list Enum.form, enums, ({ · with enums := · })⟩,
      ⟨"oneofs", list Oneof.form, oneofs, ({ · with oneofs := · })⟩,
      ⟨"extension_ranges", list ExtensionRange.form, extensionRanges,
        ({ · with extensionRanges := · })⟩,
      ⟨"reserved_ranges", list ReservedRange.form, reservedRanges,
        ({ · with reservedRanges := · })⟩,
      ⟨"reserved_names", strings, reservedNames, ({ · with reservedNames := · })⟩,
      ⟨"options", Options.form, options, ({ · with options := · })⟩]

mutual

def Message.toJson : Message → Json
  | m@⟨_, _, _, nested, _, _, _, _, _, _⟩ =>
    (Message.formOver ⟨fun _ => .array (Message.listToJson nested), fun _ => none⟩).write m

def Message.listToJson : List Message → List Json
  | [] => []
  | m :: ms => m.toJson :: Message.listToJson ms

end

def Message.ofJsonWithin? : (height : Nat) → Json → Option Message
  | 0, _ => none
  | height + 1, j =>
    (Message.formOver ⟨fun _ => .null, Json.list? (Message.ofJsonWithin? height)⟩).read j

def Message.form : Form Message :=
  ⟨toJson, fun j => ofJsonWithin? j.height j⟩

def Method.form : Form Method :=
  record { name := "", inputType := "", outputType := "" }
    [⟨"name", string, name, ({ · with name := · })⟩,
      ⟨"input_type", string, inputType, ({ · with inputType := · })⟩,
      ⟨"output_type", string, outputType, ({ · with outputType := · })⟩,
      ⟨"client_streaming", bool, clientStreaming, ({ · with clientStreaming := · })⟩,
      ⟨"server_streaming", bool, serverStreaming, ({ · with serverStreaming := · })⟩,
      ⟨"options", Options.form, options, ({ · with options := · })⟩]

def Service.form : Form Service :=
  record { name := "" }
    [⟨"name", string, name, ({ · with name := · })⟩,
      ⟨"methods", list Method.form, methods, ({ · with methods := · })⟩,
      ⟨"options", Options.form, options, ({ · with options := · })⟩]

def File.form : Form File :=
  record { name := "" }
    [⟨"name", string, name, ({ · with name := · })⟩,
      ⟨"package", nullable string, package, ({ · with package := · })⟩,
      ⟨"syntax", keyword Dialect.keyword Dialect.ofKeyword?, dialect, ({ · with dialect := · })⟩,
      ⟨"dependencies", strings, imports, ({ · with imports := · })⟩,
      ⟨"public_dependencies", list Form.index, publicImports, ({ · with publicImports := · })⟩,
      ⟨"weak_dependencies", list Form.index, weakImports, ({ · with weakImports := · })⟩,
      ⟨"messages", list Message.form, messages, ({ · with messages := · })⟩,
      ⟨"enums", list Enum.form, enums, ({ · with enums := · })⟩,
      ⟨"services", list Service.form, services, ({ · with services := · })⟩,
      ⟨"extensions", list Field.form, extensions, ({ · with extensions := · })⟩,
      ⟨"options", Options.form, options, ({ · with options := · })⟩]

def File.toJson (file : File) : Json :=
  form.write file

def File.ofJson? (j : Json) : Option File :=
  form.read j

end ProtoSchema
