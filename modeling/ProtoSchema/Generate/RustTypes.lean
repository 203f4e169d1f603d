import ProtoSchema.Generate.Identifier
import ProtoSchema.Shape
import ProtoSchema.Text.Layout

/-!
Rust types for the declarations of a file. What is declared in a message stands in a module of its
own, and types are named relative to the module of the package. The types and modules of a file form
an outline, which is then printed.
-/

namespace ProtoSchema.RustTypes

/-- The collection that holds map fields. -/
inductive MapType where
  | hash
  | btree
deriving DecidableEq, Repr

namespace MapType

def path : MapType → String
  | hash => "std::collections::HashMap"
  | btree => "std::collections::BTreeMap"

end MapType

/-- What all types of a file depend on. -/
structure Context where
  file : LinkedFile
  mapType : MapType

namespace Context

def package (ctx : Context) : String :=
  ctx.file.file.scope

end Context

/-! ## Paths -/

def insidePackage? (package name : String) : Option String :=
  if package = "" then some name
  else if (package ++ ".").toList.isPrefixOf name.toList then
    some (String.ofList (name.toList.drop (package.length + 1)))
  else none

def packageDepth (package : String) : Nat :=
  if package = "" then 0 else (Name.components package).length

/-- The module for a part of a name: of a message if it begins with a capital letter, and else of a
package. -/
def segment (part : String) : String :=
  if part.toList.head?.any Char.isUpper then Identifier.moduleName part else Identifier.plain part

/-- The path of a type, seen from a module `depth` levels below that of the package. -/
def typePath (package : String) (depth : Nat) (fullName : String) : String :=
  let name := Name.bare fullName
  let (up, relative) :=
    match insidePackage? package name with
    | some rest => (depth, rest)
    | none => (depth + packageDepth package, name)
  let parts := Name.components relative
  String.join (List.replicate up "super::" ++
    parts.dropLast.map (fun part => segment part ++ "::") ++ parts.getLast?.toList)

/-! ## Outlines -/

/-- A piece of a member: text as it is, or the path of the type with the given full name. -/
inductive Part where
  | text (content : String)
  | path (fullName : String)
deriving DecidableEq, Repr

/-- What stands in a type, with remarks above it. -/
structure Member where
  remarks : List String := []
  lead : String := ""
  name : Identifier
  rest : List Part
deriving DecidableEq, Repr

structure TypeDecl where
  remarks : List String
  lead : String
  name : Identifier
  members : List Member
deriving DecidableEq, Repr

/-- A type, or the module for what is declared in a message. -/
inductive Item where
  | type (decl : TypeDecl)
  | module (message : String) (items : List Item)
deriving Repr

/-! ## Types -/

def primitive : FieldType → String
  | .double => "f64"
  | .float => "f32"
  | .int32 | .sint32 | .sfixed32 | .enum => "i32"
  | .int64 | .sint64 | .sfixed64 => "i64"
  | .uint32 | .fixed32 => "u32"
  | .uint64 | .fixed64 => "u64"
  | .bool => "bool"
  | .string => "String"
  | .bytes => "Vec<u8>"
  | .message => "()"

def valueType : Shape → List Part
  | .message typeName | .enum typeName => [.path typeName]
  | .string => [.text "String"]
  | .primitive type => [.text (primitive type)]

/-- A type applied to another one. -/
def applied (constructor : String) (type : List Part) : List Part :=
  .text (constructor ++ "<") :: type ++ [.text ">"]

def memberType (ctx : Context) (f : Field) : List Part :=
  let mayBeAbsent :=
    f.proto3Optional || (ctx.file.file.dialect = .proto2 && f.label ≠ .repeated)
  match ctx.file.shape f with
  | .single (.message typeName) => applied "Option" (applied "Box" [.path typeName])
  | .single shape => if mayBeAbsent then applied "Option" (valueType shape) else valueType shape
  | .repeated shape => applied "Vec" (valueType shape)
  | .map key mapped => applied ctx.mapType.path (valueType key ++ .text ", " :: valueType mapped)
  | .oneofMember _ shape => valueType shape

/-! ## Declarations -/

/-- Whether a oneof was made for a single field marked optional. -/
def isSynthetic (m : Message) (o : Oneof) : Bool :=
  match o.fields with
  | [only] => m.fields[only]?.any Field.proto3Optional
  | _ => false

/-- The declared oneofs of a message with their indexes. -/
def declaredOneofs (m : Message) : List (Nat × Oneof) :=
  (m.oneofs.mapIdx fun i o => (i, o)).filter fun (_, o) => !isSynthetic m o

def fieldRemark (f : Field) : String :=
  "/// Field " ++ toString f.number.toInt ++ "."

/-- The struct member of a field that is in no declared oneof. -/
def fieldMember? (ctx : Context) (f : Field) : Option Member :=
  match ctx.file.shape f with
  | .oneofMember _ _ => none
  | _ => some
    { remarks := [fieldRemark f], lead := "pub ", name := ⟨.marked, f.name⟩
      rest := .text ": " :: memberType ctx f ++ [.text ","] }

def oneofMember (m : Message) (o : Oneof) : Member where
  lead := "pub "
  name := ⟨.marked, o.name⟩
  rest := .text ": " ::
    applied "Option" [.text (Identifier.moduleName m.name ++ "::" ++ Identifier.typeName o.name)] ++
    [.text ","]

/-- The variant for a member of a declared oneof. -/
def variant? (ctx : Context) (f : Field) : Option Member :=
  match ctx.file.shape f with
  | .oneofMember _ shape =>
    let type :=
      match shape with
      | .message typeName => applied "Box" [.path typeName]
      | _ => valueType shape
    some
      { remarks := [fieldRemark f], name := ⟨.camel, f.name⟩
        rest := .text "(" :: type ++ [.text "),"] }
  | _ => none

def oneofDecl (ctx : Context) (m : Message) (index : Nat) (o : Oneof) : TypeDecl where
  remarks := ["/// Oneof `" ++ o.name ++ "`.", "#[derive(Debug, Clone, PartialEq)]"]
  lead := "pub enum "
  name := ⟨.camel, o.name⟩
  members := (m.fields.filter fun f => f.oneofIndex = some index).filterMap (variant? ctx)

/-- The values of an enum without those whose number was there before. -/
def distinctValues (seen : List Int32) : List EnumValue → List EnumValue
  | [] => []
  | v :: vs =>
    if v.number ∈ seen then distinctValues seen vs
    else v :: distinctValues (v.number :: seen) vs

def valueMember (first : Bool) (v : EnumValue) : Member where
  remarks := if first then ["#[default]"] else []
  name := ⟨.variant, v.name⟩
  rest := [.text (" = " ++ toString v.number.toInt ++ ",")]

def enumDecl (fullName : String) (e : Enum) : TypeDecl where
  remarks := ["/// Enum `" ++ fullName ++ "`.",
    "#[derive(Debug, Clone, Copy, PartialEq, Eq, Hash, PartialOrd, Ord, Default)]", "#[repr(i32)]"]
  lead := "pub enum "
  name := ⟨.same, e.name⟩
  members := (distinctValues [] e.values).mapIdx fun i v => valueMember (i = 0) v

def structDecl (ctx : Context) (fullName : String) (m : Message) : TypeDecl where
  remarks := ["/// Message `" ++ fullName ++ "`.", "#[derive(Debug, Clone, PartialEq, Default)]"]
  lead := "pub struct "
  name := ⟨.same, m.name⟩
  members := m.fields.filterMap (fieldMember? ctx) ++
    (declaredOneofs m).map fun (_, o) => oneofMember m o

/-- Whether anything is declared in a message. -/
def opensModule (m : Message) : Bool :=
  m.nested.any (fun n => !n.isMapEntry) || !m.enums.isEmpty || !(declaredOneofs m).isEmpty

mutual

/-- A message's struct, and its module if it needs one. -/
def messageItems (ctx : Context) (scope : String) : Message → List Item
  | m@⟨name, _, _, nested, enums, _, _, _, _, _⟩ =>
    let fullName := Name.qualify scope name
    let inner := nestedItems ctx fullName nested ++
      enums.map (fun e => .type (enumDecl (Name.qualify fullName e.name) e)) ++
      (declaredOneofs m).map fun (i, o) => .type (oneofDecl ctx m i o)
    .type (structDecl ctx fullName m) ::
      if opensModule m then [.module name inner] else []

/-- Messages other than the pair types of maps. -/
def nestedItems (ctx : Context) (scope : String) : List Message → List Item
  | [] => []
  | m :: ms =>
    if m.isMapEntry then nestedItems ctx scope ms
    else messageItems ctx scope m ++ nestedItems ctx scope ms

end

def methodMember (m : Method) : Member :=
  let type (streaming : Bool) (typeName : String) : List Part :=
    if streaming then applied "Vec" [.path typeName] else [.path typeName]
  { lead := "fn ", name := ⟨.snake, m.name⟩
    rest := .text "(&self, request: " :: type m.clientStreaming m.inputType ++
      .text ") -> " :: type m.serverStreaming m.outputType ++ [.text ";"] }

def serviceDecl (fullName : String) (s : Service) : TypeDecl where
  remarks := ["/// Service `" ++ fullName ++ "`."]
  lead := "pub trait "
  name := ⟨.same, s.name⟩
  members := s.methods.map methodMember

def outline (ctx : Context) : List Item :=
  let file := ctx.file.file
  file.messages.flatMap (messageItems ctx ctx.package) ++
    file.enums.map (fun e => .type (enumDecl (Name.qualify ctx.package e.name) e)) ++
    file.services.map fun s => .type (serviceDecl (Name.qualify ctx.package s.name) s)

/-! ## Printing -/

def Part.write (package : String) (depth : Nat) : Part → String
  | text content => content
  | path fullName => typePath package depth fullName

def Member.lines (package : String) (depth : Nat) (x : Member) : List Line :=
  x.remarks.map .of ++
    [.of (x.lead ++ x.name.text ++ String.join (x.rest.map (Part.write package depth)))]

mutual

/-- The lines of what stands in a module `depth` levels below that of the package. -/
def Item.lines (package : String) (depth : Nat) : Item → List Line
  | .type decl => decl.remarks.map .of ++
    Line.block (decl.lead ++ decl.name.text ++ " \x7b")
      (decl.members.flatMap (Member.lines package depth)) "\x7d"
  | .module message items =>
    .of ("/// Nested types of `" ++ message ++ "`.") ::
      Line.block ("pub mod " ++ Identifier.moduleName message ++ " \x7b")
        (linesAll package (depth + 1) items) "\x7d"

def linesAll (package : String) (depth : Nat) : List Item → List Line
  | [] => []
  | x :: xs => .gap :: x.lines package depth ++ linesAll package depth xs

end

def print (package fileName : String) (items : List Item) : String :=
  Line.render "    "
    (.of ("// Generated from " ++ fileName ++ ". Do not edit.") :: linesAll package 0 items)

def render (ctx : Context) : String :=
  print ctx.package ctx.file.file.name (outline ctx)

end ProtoSchema.RustTypes
