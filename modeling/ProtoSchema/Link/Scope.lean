import ProtoSchema.LinkedFile

/-!
Which declaration a type name means at a place in a file.
-/

namespace ProtoSchema

/-- The names that can be used in a file. -/
structure Scope where
  /-- What the file and the files visible to it declare. -/
  declared : List Declared
  /-- The packages of these files, with the packages around them. -/
  packages : List String

namespace Scope

/-- The names of a file that sees the files `visible`. -/
def ofFile (file : File) (visible : List LinkedFile) : Scope where
  declared := file.declared ++ visible.flatMap LinkedFile.declared
  packages := (file.package :: visible.map fun f => f.file.package).flatMap fun package =>
    (Name.scopes (package.getD "")).filter (· ≠ "")

def lookup? (scope : Scope) (fullName : String) : Option Declared :=
  Declared.find? scope.declared fullName

/-- Whether a name is that of a declaration or a package, which further names can stand in. -/
def isScope (scope : Scope) (fullName : String) : Bool :=
  fullName ∈ scope.packages || (scope.lookup? fullName).isSome

/-- The declaration that `name` means at the place `place`. A name in several parts is bound by its
first part, in the innermost scope that has it; if the whole name is not found there, it means
nothing. -/
def resolve? (scope : Scope) (place name : String) : Option Declared :=
  match Name.absolute? name with
  | some fullName => scope.lookup? fullName
  | none =>
    match Name.first? name with
    | some first =>
      ((Name.scopes place).find? fun s => scope.isScope (Name.qualify s first)).bind fun s =>
        scope.lookup? (Name.qualify s name)
    | none => (Name.scopes place).findSome? fun s => scope.lookup? (Name.qualify s name)

end Scope

end ProtoSchema
