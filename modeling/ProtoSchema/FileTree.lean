import ProtoSchema.Text.Split

/-!
Directories of files, and the paths that lead to them. A place in a tree is the list of names on
the way to it from the top.
-/

namespace ProtoSchema

namespace Path

/-- Whether a path begins at the top of all directories. -/
def isAbsolute (path : String) : Bool :=
  path.toList.head? = some '/'

/-- A path seen from a directory. -/
def join (directory path : String) : String :=
  if isAbsolute path then path
  else if directory = "" ∨ directory.toList.getLast? = some '/' then directory ++ path
  else directory ++ "/" ++ path

/-- The steps of a path; an empty one or a dot stays where it is, and two dots go up. -/
def steps (path : String) : List String :=
  Split.parts '/' path

def stays (step : String) : Bool :=
  step = "" || step = "."

end Path

/-- Why a file cannot be read or written. -/
inductive FileFault where
  | notFound
  | notText
  | alreadyExists
  | notDirectory
  | isDirectory
deriving DecidableEq, Repr

namespace FileFault

def message : FileFault → String
  | notFound => "not found under any proto path"
  | notText => "stream did not contain valid UTF-8"
  | alreadyExists => "File exists (os error 17)"
  | notDirectory => "Not a directory (os error 20)"
  | isDirectory => "Is a directory (os error 21)"

end FileFault

structure FileTree where
  files : List (List String × List UInt8)
  /-- Directories that were made; others are there because files are in them. -/
  directories : List (List String) := []
deriving DecidableEq, Repr

namespace FileTree

def isFile (tree : FileTree) (place : List String) : Bool :=
  tree.files.any fun f => f.1 = place

def isDirectory (tree : FileTree) (place : List String) : Bool :=
  place = [] || place ∈ tree.directories ||
    (tree.files.map Prod.fst ++ tree.directories).any fun p => place ≠ p && place.isPrefixOf p

/-- Where steps lead from a place in the tree. Only from a directory does any step lead on. -/
def walk? (tree : FileTree) (place : List String) : List String → Option (List String)
  | [] => some place
  | step :: steps =>
    if !tree.isDirectory place then none
    else if Path.stays step then walk? tree place steps
    else if step = ".." then if place = [] then none else walk? tree place.dropLast steps
    else walk? tree (place ++ [step]) steps

/-- The place that a path leads to, if it stays in the tree. -/
def place? (tree : FileTree) (path : String) : Option (List String) :=
  if Path.isAbsolute path then none else tree.walk? [] (Path.steps path)

/-- The content of the file that a path leads to. -/
def read? (tree : FileTree) (path : String) : Option (List UInt8) :=
  (tree.place? path).bind fun place => tree.files.lookup place

/-- Goes down steps and makes the directories that are missing. A file in the way is called one that
exists if it is the last step or stands behind a new directory. The place is `none` outside of the
tree. -/
def enter (tree : FileTree) (place : List String) (made : Bool) :
    List String → Except FileFault (Option (List String) × FileTree)
  | [] => .ok (some place, tree)
  | step :: steps =>
    if step = ".." then
      if place = [] then .ok (none, tree) else enter tree place.dropLast made steps
    else
      let next := place ++ [step]
      if tree.isDirectory next then enter tree next made steps
      else if tree.isFile next then
        .error (if steps.isEmpty || made then .alreadyExists else .notDirectory)
      else enter { tree with directories := tree.directories ++ [next] } next true steps

/-- Puts a file into a directory, in place of one that is there already. -/
def put (tree : FileTree) (place : List String) (content : List UInt8) : FileTree :=
  { tree with files := tree.files.filter (fun f => f.1 ≠ place) ++ [(place, content)] }

/-- Writes a file and makes the directories on the way to it. What is written outside of the tree
does not show in it. -/
def write (tree : FileTree) (path : String) (content : List UInt8) : Except FileFault FileTree :=
  if Path.isAbsolute path then .ok tree
  else
    let steps := (Path.steps path).filter fun step => !Path.stays step
    match steps.getLast? with
    | none => .error .isDirectory
    | some name =>
      match tree.enter [] false steps.dropLast with
      | .error fault => .error fault
      | .ok (none, tree) => .ok tree
      | .ok (some place, tree) =>
        if tree.isDirectory (place ++ [name]) then .error .isDirectory
        else .ok (tree.put (place ++ [name]) content)

end FileTree

end ProtoSchema
