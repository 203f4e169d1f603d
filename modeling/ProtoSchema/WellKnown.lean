import ProtoSchema.CompileError
import ProtoSchema.Link
import ProtoSchema.WellKnown.Descriptor

/-!
The schemas that every file can import.
-/

namespace ProtoSchema

/-- Linked files under the paths by which they are imported. -/
abbrev Library :=
  List (String × LinkedFile)

namespace Library

def dependencies (library : Library) (file : File) : Except LinkError (List LinkedFile) :=
  file.imports.mapM fun path =>
    match library.lookup path with
    | some linked => .ok linked
    | none => .error ⟨file.name, .unlinkedImport path⟩

/-- Links a file against what is in the library. -/
def link (library : Library) (linker : Linker) (file : File) : Except LinkError LinkedFile := do
  linker file (← library.dependencies file)

end Library

namespace WellKnown

/-- Every well-known file with its text. A file stands behind those that it imports. -/
def texts : List (String × String) :=
  [("google/protobuf/any.proto", any),
    ("google/protobuf/source_context.proto", sourceContext),
    ("google/protobuf/type.proto", typeText),
    ("google/protobuf/api.proto", api),
    ("google/protobuf/duration.proto", duration),
    ("google/protobuf/empty.proto", empty),
    ("google/protobuf/field_mask.proto", fieldMask),
    ("google/protobuf/struct.proto", structText),
    ("google/protobuf/timestamp.proto", timestamp),
    ("google/protobuf/wrappers.proto", wrappers),
    ("google/protobuf/descriptor.proto", descriptor)]

def text? (path : String) : Option String :=
  texts.lookup path

def add (linker : Linker) (library : Library) (path text : String) :
    Except CompileError Library := do
  let (file, _) ← (parse path text).mapError .parse
  let linked ← (library.link linker file).mapError .link
  return library ++ [(path, linked)]

def library (linker : Linker) : Except CompileError Library :=
  texts.foldlM (fun library (path, text) => add linker library path text) []

end WellKnown

end ProtoSchema
