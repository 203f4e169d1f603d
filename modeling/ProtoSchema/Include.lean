import ProtoSchema.FileTree
import ProtoSchema.Parse
import ProtoSchema.Sources

/-!
How imports are found under directories.
-/

namespace ProtoSchema

/-- What is known of the files that can be read. -/
structure Files where
  /-- The content of the file that a path leads to. -/
  read? : String → Option (List UInt8)
  /-- The contents of all files. -/
  contents : List (List UInt8)

namespace FileTree

def toFiles (tree : FileTree) : Files :=
  ⟨tree.read?, tree.files.map Prod.snd⟩

end FileTree

namespace Include

/-- Imports are relative and never lead out of the directory that they are looked for in. -/
def isImportPath (path : String) : Bool :=
  path ≠ "" && !Path.isAbsolute path && !(Path.steps path).contains ".."

/-- Where a file may be, in the order of the directories. -/
def candidates (directories : List String) (path : String) : List String :=
  if isImportPath path then directories.map fun d => Path.join d path else []

/-- The first file that is there, with its content. -/
def locate? (files : Files) (directories : List String) (path : String) :
    Option (String × List UInt8) :=
  (candidates directories path).findSome? fun p => (files.read? p).map (p, ·)

/-- The text of an import. Of several files only the first counts, even if it is no text. -/
def text? (files : Files) (directories : List String) (path : String) : Option String :=
  (locate? files directories path).bind fun (_, content) => Utf8.string? content

/-- The paths that a file imports, if it is a schema. -/
def importsOf (content : List UInt8) : List String :=
  match (Utf8.string? content).map (parse "") with
  | some (.ok (file, _)) => file.imports
  | _ => []

/-- Every text that some file imports, under the path by which it does. -/
def sources (files : Files) (directories : List String) : Sources :=
  (files.contents.flatMap importsOf).eraseDups.filterMap fun path =>
    (text? files directories path).map (path, ·)

end Include

end ProtoSchema
