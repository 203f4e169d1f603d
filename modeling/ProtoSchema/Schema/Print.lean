import ProtoSchema.Name
import ProtoSchema.Schema.File
import ProtoSchema.Text.Layout

/-!
Schema texts. What is printed reads back as the same file: a map field is written `map<K, V>`
without its pair type, and a field marked optional without the oneof made for it.
-/

namespace ProtoSchema

def literal (text : String) : String :=
  "\"" ++ Escape.escape (Utf8.bytes text) ++ "\""

def commaSeparated (parts : List String) : String :=
  ", ".intercalate parts

namespace Setting

def render (s : Setting) : String :=
  s.name ++ " = " ++ s.value.render

end Setting

namespace Options

def lines (options : Options) : List Line :=
  options.map fun s => .of ("option " ++ s.render ++ ";")

/-- Options in brackets behind a declaration, `special` ones first. -/
def bracketed (options : Options) (special : List String) : String :=
  let entries := special ++ options.map Setting.render
  if entries.isEmpty then "" else " [" ++ commaSeparated entries ++ "]"

end Options

namespace Field

/-- Whether a field can be the map field that a pair type was made for. -/
def ownsEntry (f : Field) (entry : Message) : Bool :=
  f.isRepeated && (f.typeName.map Name.last) == some entry.name

/-- The pair type of a map field among the messages nested next to it. -/
def entryIn? (f : Field) (nested : List Message) : Option Message :=
  nested.find? fun m => m.isMapEntry && f.ownsEntry m

def typeText (f : Field) : String :=
  match f.type.bind FieldType.keyword? with
  | some keyword => keyword
  | none => f.typeName.getD ""

def defaultText (f : Field) (value : String) : String :=
  match f.type with
  | some .string => literal value
  | some .bytes => "\"" ++ value ++ "\""
  | _ => value

/-- The label that is written out in front of a field. -/
def writtenLabel? (f : Field) (dialect : Dialect) (inOneof : Bool) : Option String :=
  if inOneof then none
  else if dialect = .proto2 || f.label = .repeated then some f.label.keyword
  else if f.proto3Optional then some "optional"
  else none

/-- The label and type of a field, or the two types of a map. -/
def head (f : Field) (nested : List Message) (dialect : Dialect) (inOneof : Bool) : String :=
  let plain :=
    match f.writtenLabel? dialect inOneof with
    | some label => label ++ " " ++ f.typeText
    | none => f.typeText
  match f.entryIn? nested with
  | some entry =>
    match entry.fields with
    | [key, value] => "map<" ++ key.typeText ++ ", " ++ value.typeText ++ ">"
    | _ => plain
  | none => plain

/-- The default and the JSON name, written like options. -/
def specialOptions (f : Field) : List String :=
  (f.defaultValue.map fun value => "default = " ++ f.defaultText value).toList ++
    (f.jsonName.map fun name => "json_name = " ++ literal name).toList

/-- A field next to the given nested messages. -/
def line (f : Field) (nested : List Message) (dialect : Dialect) (inOneof : Bool) : Line :=
  .of (f.head nested dialect inOneof ++ " " ++ f.name ++ " = " ++ toString f.number.toInt ++
    Options.bracketed f.options f.specialOptions ++ ";")

def extendBlock (dialect : Dialect) (group : List Field) : List Line :=
  Line.block ("extend " ++ ((group.head?.bind extendee).getD "") ++ " \x7b")
    (group.map fun f => f.line [] dialect false) "\x7d"

/-- Extensions, in one block as long as they extend the same message. -/
def extendLines (dialect : Dialect) (fields : List Field) : List Line :=
  (fields.splitBy fun f g => f.extendee.getD "" == g.extendee.getD "").flatMap (extendBlock dialect)

end Field

namespace ReservedRange

/-- A range whose last number is `last`. -/
def render (r : ReservedRange) (last : Int32) : String :=
  if last = r.start then toString r.start.toInt
  else toString r.start.toInt ++ " to " ++ toString last.toInt

/-- A statement that reserves what is in a list, if there is anything. -/
def statement (items : List String) : List Line :=
  if items.isEmpty then [] else [.of ("reserved " ++ commaSeparated items ++ ";")]

/-- Reserved ranges, with their last numbers, and reserved names, in a statement each. -/
def lines (ranges : List (ReservedRange × Int32)) (names : List String) : List Line :=
  statement (ranges.map fun (r, last) => r.render last) ++ statement (names.map literal)

end ReservedRange

namespace ExtensionRange

def line (r : ExtensionRange) : Line :=
  let last := r.stop - 1
  let bound :=
    if last = Field.maxNumber then " to max"
    else if last = r.start then ""
    else " to " ++ toString last.toInt
  .of ("extensions " ++ toString r.start.toInt ++ bound ++ Options.bracketed r.options [] ++ ";")

end ExtensionRange

namespace Enum

def valueLine (v : EnumValue) : Line :=
  .of (v.name ++ " = " ++ toString v.number.toInt ++ Options.bracketed v.options [] ++ ";")

def lines (e : Enum) : List Line :=
  Line.block ("enum " ++ e.name ++ " \x7b")
    (Options.lines e.options ++ e.values.map valueLine ++
      ReservedRange.lines (e.reservedRanges.map fun r => (r, r.stop)) e.reservedNames) "\x7d"

end Enum

namespace Message

/-- The oneof that a field is written in. A field marked optional is written on its own. -/
def writtenOneof? (m : Message) (f : Field) : Option Oneof :=
  if f.proto3Optional then none else f.oneofIndex.bind fun i => m.oneofs[i]?

def oneofLines (m : Message) (dialect : Dialect) (o : Oneof) : List Line :=
  Line.block ("oneof " ++ o.name ++ " \x7b")
    (Options.lines o.options ++
      o.fields.filterMap fun i => m.fields[i]?.map fun f => f.line m.nested dialect true) "\x7d"

/-- The field with the given index, or its whole oneof. -/
def groupLines (m : Message) (dialect : Dialect) (index : Nat) : List Line :=
  match m.fields[index]? with
  | none => []
  | some f =>
    match m.writtenOneof? f with
    | some o => m.oneofLines dialect o
    | none => [f.line m.nested dialect false]

/-- The index after the last field that is written together with the one at `index`. -/
def groupEnd (m : Message) (index : Nat) : Nat :=
  match m.fields[index]?.bind m.writtenOneof? with
  | some o => o.fields.foldl max index + 1
  | none => index + 1

theorem le_foldl_max (ns : List Nat) (k : Nat) : k ≤ ns.foldl max k := by
  induction ns generalizing k with
  | nil => exact Nat.le_refl k
  | cons n ns ih => exact Nat.le_trans (Nat.le_max_left k n) (ih (max k n))

theorem lt_groupEnd (m : Message) (index : Nat) : index < m.groupEnd index := by
  unfold groupEnd
  split
  · exact Nat.lt_succ_of_le (le_foldl_max _ _)
  · exact Nat.lt_succ_self _

/-- Fields from the index `next` on while it is below `bound`, and the index of the first field
not written. -/
def groupsUpTo (m : Message) (dialect : Dialect) (bound next : Nat) : List Line × Nat :=
  if next < bound then
    let (lines, stop) := groupsUpTo m dialect bound (m.groupEnd next)
    (m.groupLines dialect next ++ lines, stop)
  else ([], next)
termination_by bound - next
decreasing_by
  have := m.lt_groupEnd next
  omega

/-- The index of the map field that a pair type was made for. -/
def entryOwner? (m : Message) (entry : Message) : Option Nat :=
  m.fields.findIdx? fun f => f.ownsEntry entry

/-- What stands in a message behind its nested messages and fields. -/
def tailLines (m : Message) (dialect : Dialect) : List Line :=
  m.enums.flatMap Enum.lines ++ m.extensionRanges.map ExtensionRange.line ++
    ReservedRange.lines (m.reservedRanges.map fun r => (r, r.stop - 1)) m.reservedNames ++
    Field.extendLines dialect m.extensions

mutual

def lines (dialect : Dialect) : Message → List Line
  | m@⟨name, _, _, nested, _, _, _, _, _, options⟩ =>
    Line.block ("message " ++ name ++ " \x7b")
      (Options.lines options ++ nestedLines dialect m nested 0 ++ m.tailLines dialect) "\x7d"

/-- Nested messages with the fields between them: a pair type must come back at its place among
the nested messages, so the fields up to its map field are written where it stood. -/
def nestedLines (dialect : Dialect) (m : Message) : List Message → Nat → List Line
  | [], next => (m.groupsUpTo dialect m.fields.length next).1
  | n :: ns, next =>
    if n.isMapEntry then
      match m.entryOwner? n with
      | some owner =>
        let (lines, next) := m.groupsUpTo dialect (owner + 1) next
        lines ++ nestedLines dialect m ns next
      | none => nestedLines dialect m ns next
    else n.lines dialect ++ nestedLines dialect m ns next

end

end Message

namespace Method

def stream (on : Bool) : String :=
  if on then "stream " else ""

def lines (m : Method) : List Line :=
  let head := "rpc " ++ m.name ++ "(" ++ stream m.clientStreaming ++ m.inputType ++ ") returns (" ++
    stream m.serverStreaming ++ m.outputType ++ ")"
  if m.options.isEmpty then [.of (head ++ ";")]
  else Line.block (head ++ " \x7b") (Options.lines m.options) "\x7d"

end Method

namespace Service

def lines (s : Service) : List Line :=
  Line.block ("service " ++ s.name ++ " \x7b")
    (Options.lines s.options ++ s.methods.flatMap Method.lines) "\x7d"

end Service

namespace File

def importLine (file : File) (index : Nat) (path : String) : Line :=
  let modifier :=
    if file.publicImports.contains index then "public "
    else if file.weakImports.contains index then "weak "
    else ""
  .of ("import " ++ modifier ++ literal path ++ ";")

/-- Lines set off by a gap, if there are any. -/
def setOff (lines : List Line) : List Line :=
  if lines.isEmpty then [] else .gap :: lines

def lines (file : File) : List Line :=
  .of ("syntax = \"" ++ file.dialect.keyword ++ "\";") ::
    setOff (file.package.map fun p => Line.of ("package " ++ p ++ ";")).toList ++
    setOff (file.imports.mapIdx file.importLine) ++
    setOff (Options.lines file.options) ++
    file.messages.flatMap (fun m => .gap :: m.lines file.dialect) ++
    file.enums.flatMap (fun e => .gap :: e.lines) ++
    file.services.flatMap (fun s => .gap :: s.lines) ++
    setOff (Field.extendLines file.dialect file.extensions)

def print (file : File) : String :=
  Line.render "  " file.lines

end File

end ProtoSchema
