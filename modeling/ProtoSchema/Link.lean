import ProtoSchema.Link.Fault
import ProtoSchema.Link.Scope

/-!
Linking: the rules that a file must keep beyond its grammar, and the resolution of its references.
-/

namespace ProtoSchema

namespace LinkFault

/-! ## Rules -/

/-- The first import whose place in `dependencies` is not taken by a file of its name. -/
def unlinked? : List String → List LinkedFile → Option String
  | [], _ => none
  | path :: _, [] => some path
  | path :: paths, d :: ds => if d.name = path then unlinked? paths ds else some path

def checkDependencies (file : File) (dependencies : List LinkedFile) : Except LinkFault Unit :=
  match unlinked? file.imports dependencies with
  | some path => .error (.unlinkedImport path)
  | none =>
    if dependencies.length = file.imports.length then .ok ()
    else .error (.dependencyCount dependencies.length file.imports.length)

mutual

/-- A message in `m` for which there are not enough `levels` left. -/
def tooDeep? (levels : Nat) : Message → Option Message
  | m@⟨_, _, _, nested, _, _, _, _, _, _⟩ =>
    match levels with
    | 0 => some m
    | levels + 1 => tooDeepIn? levels nested

/-- The last message comes first. -/
def tooDeepIn? (levels : Nat) : List Message → Option Message
  | [] => none
  | m :: ms => (tooDeepIn? levels ms).or (tooDeep? levels m)

end

def checkNesting (file : File) : Except LinkFault Unit :=
  match tooDeepIn? Message.maxNesting file.messages with
  | some m => .error (.nestedTooDeep m.name)
  | none => .ok ()

/-- No full name is declared twice, or again in a visible file. -/
def checkNames (file : File) (visible : List LinkedFile) : Except LinkFault Unit :=
  match Declared.firstRepeated? [] file.declared with
  | some fullName => .error (.alreadyDefined fullName)
  | none =>
    let others := visible.flatMap LinkedFile.declared
    match file.declared.find? fun d => (Declared.find? others d.fullName).isSome with
    | some d => .error (.alreadyDefined d.fullName)
    | none => .ok ()

def checkNumber (place : String) (f : Field) : Except LinkFault Unit :=
  if f.number < 1 ∨ Field.maxNumber < f.number then
    .error (.fieldNumberRange f.number (Name.qualify place f.name))
  else if 19000 ≤ f.number ∧ f.number ≤ 19999 then
    .error (.fieldNumberReserved f.number (Name.qualify place f.name))
  else .ok ()

/-- The fields of a message have legal numbers, and no name or number twice. -/
def checkFields (message : String) (seen : List Field) : List Field → Except LinkFault Unit
  | [] => .ok ()
  | f :: fs => do
    checkNumber message f
    if seen.any fun g => g.name = f.name then
      throw (.sameFieldName f.name message)
    match seen.find? fun g => g.number = f.number with
    | some g =>
      throw (.sameFieldNumber f.number (Name.qualify message g.name) (Name.qualify message f.name))
    | none => checkFields message (f :: seen) fs

def checkEnum (dialect : Dialect) (place : String) (e : Enum) : Except LinkFault Unit :=
  match e.values with
  | [] => .error (.enumWithoutValues (Name.qualify place e.name))
  | v :: _ =>
    if dialect = .proto3 ∧ v.number ≠ 0 then .error (.enumNotFromZero (Name.qualify place e.name))
    else .ok ()

end LinkFault

/-! ## References -/

namespace Scope

/-- The full name of the message that is meant, led by a dot. -/
def message (scope : Scope) (place name : String) (referrer : Referrer) : Except LinkFault String :=
  match scope.resolve? place name with
  | some d =>
    if d.kind = .message then .ok ("." ++ d.fullName) else .error (.notAMessage name referrer)
  | none => .error (.undefinedType name referrer)

/-- The type and full name for the type name of a field. -/
def fieldType (scope : Scope) (place name : String) (referrer : Referrer) :
    Except LinkFault (FieldType × String) :=
  match scope.resolve? place name with
  | some d =>
    match d.kind with
    | .message => .ok (.message, "." ++ d.fullName)
    | .enum => .ok (.enum, "." ++ d.fullName)
    | .service => .error (.notAType d.fullName referrer)
  | none => .error (.undefinedType name referrer)

end Scope

namespace Field

/-- Gives a field of a named type the full name and kind of that type. -/
def resolve (scope : Scope) (place : String) (f : Field) : Except LinkFault Field :=
  let referrer := Referrer.field (Name.qualify place f.name)
  match f.type, f.typeName with
  | some _, _ => .ok f
  | none, none => .error (.noType referrer)
  | none, some name =>
    (scope.fieldType place name referrer).map fun (type, fullName) =>
      { f with type := some type, typeName := some fullName }

def link (scope : Scope) (place : String) (f : Field) : Except LinkFault Field := do
  let f ← f.resolve scope place
  if f.type = some .message ∧ f.defaultValue.isSome then
    throw (.defaultOfMessage (.field (Name.qualify place f.name)))
  return f

def linkExtension (scope : Scope) (place : String) (f : Field) : Except LinkFault Field := do
  LinkFault.checkNumber place f
  let extendee ← scope.message place (f.extendee.getD "") (.extension (Name.qualify place f.name))
  { f with extendee := some extendee }.link scope place

end Field

namespace Message

mutual

def link (scope : Scope) (dialect : Dialect) (place : String) : Message → Except LinkFault Message
  | ⟨name, fields, extensions, nested, enums, oneofs, extensionRanges, reservedRanges,
      reservedNames, options⟩ => do
    let place := Name.qualify place name
    LinkFault.checkFields place [] fields
    let fields ← fields.mapM (Field.link scope place)
    let extensions ← extensions.mapM (Field.linkExtension scope place)
    let nested ← linkAll scope dialect place nested
    enums.forM (LinkFault.checkEnum dialect place)
    return ⟨name, fields, extensions, nested, enums, oneofs, extensionRanges, reservedRanges,
      reservedNames, options⟩

def linkAll (scope : Scope) (dialect : Dialect) (place : String) :
    List Message → Except LinkFault (List Message)
  | [] => .ok []
  | m :: ms => do
    let m ← m.link scope dialect place
    let ms ← linkAll scope dialect place ms
    return m :: ms

end

end Message

namespace Method

def link (scope : Scope) (place service : String) (m : Method) : Except LinkFault Method := do
  let referrer := Referrer.method (service ++ "." ++ m.name)
  let inputType ← scope.message place m.inputType referrer
  let outputType ← scope.message place m.outputType referrer
  return { m with inputType, outputType }

end Method

namespace Service

def link (scope : Scope) (place : String) (s : Service) : Except LinkFault Service := do
  let methods ← s.methods.mapM (Method.link scope place (Name.qualify place s.name))
  return { s with methods }

end Service

namespace File

/-- Checks the declarations of a file and resolves its references. -/
def resolve (scope : Scope) (file : File) : Except LinkFault File := do
  let messages ← Message.linkAll scope file.dialect file.scope file.messages
  file.enums.forM (LinkFault.checkEnum file.dialect file.scope)
  let extensions ← file.extensions.mapM (Field.linkExtension scope file.scope)
  let services ← file.services.mapM (Service.link scope file.scope)
  return { file with messages, extensions, services }

def linked (file : File) (dependencies : List LinkedFile) : Except LinkFault LinkedFile := do
  LinkFault.checkDependencies file dependencies
  LinkFault.checkNesting file
  let visible := LinkedFile.visible dependencies
  LinkFault.checkNames file visible
  let file ← file.resolve (.ofFile file visible)
  return { file, dependencies }

end File

/-- A way to link a file against the linked files that it imports. -/
abbrev Linker :=
  File → List LinkedFile → Except LinkError LinkedFile

def link : Linker := fun file dependencies =>
  (file.linked dependencies).mapError (⟨file.name, ·⟩)

end ProtoSchema
