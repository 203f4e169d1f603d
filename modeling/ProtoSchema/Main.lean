import ProtoSchema.CommandLine

/-!
The command itself: it reads the files that matter, and writes the outputs.
-/

namespace ProtoSchema.Main

/-- What has been looked up on disk: contents, or that there is no file. -/
abbrev Known :=
  List (String × Option (List UInt8))

def filesOf (known : Known) : Files where
  read? path := (known.lookup path).join
  contents := known.filterMap Prod.snd

def readFile? (path : String) : IO (Option (List UInt8)) := do
  try
    let content ← IO.FS.readBinFile path
    return some content.toList
  catch _ => return none

/-- Looks up the files that are consulted until there are no new ones. -/
partial def settle (a : Arguments) (known : Known) : IO Files := do
  let files := filesOf known
  let new := (CommandLine.consulted files a).eraseDups.filter fun p => (known.lookup p).isNone
  if new.isEmpty then return files
  let found ← new.mapM fun p => do return (p, ← readFile? p)
  settle a (known ++ found)

def parent (path : String) : String :=
  "/".intercalate (Path.steps path).dropLast

def describe : IO.Error → String
  | .alreadyExists _ code details | .inappropriateType _ code details
  | .permissionDenied _ code details | .noFileOrDirectory _ code details =>
    details ++ " (os error " ++ toString code ++ ")"
  | e => toString e

def writeOutput (o : Output) : IO (Option String) := do
  try
    if parent o.path ≠ "" then IO.FS.createDirAll (parent o.path)
    IO.FS.writeFile o.path o.content
    return none
  catch e => return some (o.path ++ ": " ++ describe e)

def writeOutputs : List Output → IO (Option String)
  | [] => return none
  | o :: os => do
    match ← writeOutput o with
    | none => writeOutputs os
    | some message => return some message

def usage : String :=
  "usage: [-I DIR]... [-t NAME[:PARAMETER]]... [-o DIR] [-v]... INPUT...\n"

def run (a : Arguments) : IO UInt32 := do
  match CommandLine.outputs (← settle a []) a with
  | .error e =>
    IO.eprint e.report
    return 1
  | .ok outputs =>
    match ← writeOutputs outputs with
    | none => return 0
    | some message =>
      IO.eprint ("error: " ++ message ++ "\n")
      return 1

end ProtoSchema.Main

def main (args : List String) : IO UInt32 := do
  match ProtoSchema.Arguments.ofWords args with
  | .error refusal =>
    IO.eprint ProtoSchema.Main.usage
    return refusal.status.toUInt32
  | .ok a => ProtoSchema.Main.run a
