import ProtoSchema.CommandLine.Arguments
import ProtoSchema.Compiler
import ProtoSchema.Include

/-!
The command: schemas are found under directories, compiled, and the outputs written.
-/

namespace ProtoSchema

inductive CommandError where
  | compile (e : CompileError)
  | file (path : String) (fault : FileFault)

namespace CommandError

def message : CommandError → String
  | compile e => e.message
  | file path fault => path ++ ": " ++ fault.message

def report (e : CommandError) : String :=
  "error: " ++ e.message ++ "\n"

end CommandError

namespace CommandLine

def readInput (files : Files) (directories : List String) (input : String) :
    Except CommandError String :=
  match Include.locate? files directories input with
  | none => .error (.file input .notFound)
  | some (path, content) =>
    match Utf8.string? content with
    | some text => .ok text
    | none => .error (.file path .notText)

def readInputs (files : Files) (a : Arguments) : Except CommandError Sources :=
  a.inputs.mapM fun input => (readInput files a.searchPath input).map (input, ·)

/-- The outputs for the inputs, at the paths where they are to be written. -/
def outputs (files : Files) (a : Arguments) : Except CommandError (List Output) := do
  let roots ← readInputs files a
  let library := Include.sources files a.searchPath
  let compiled := ({} : Compiler).compile roots a.wantedTargets library
  let outputs ← compiled.result.mapError .compile
  return outputs.map fun o => { o with path := Path.join (a.outDirectory.getD ".") o.path }

/-- Every path that decides what is compiled. -/
def consulted (files : Files) (a : Arguments) : List String :=
  let asked :=
    match readInputs files a with
    | .error _ => []
    | .ok roots =>
      (({} : Compiler).compile roots a.wantedTargets (Include.sources files a.searchPath)).asked
  (a.inputs ++ asked).flatMap (Include.candidates a.searchPath)

/-- Writes outputs one after the other, up to the first that cannot be written. -/
def writeAll (tree : FileTree) : List Output → Option CommandError × FileTree
  | [] => (none, tree)
  | o :: os =>
    match tree.write o.path (Utf8.bytes o.content) with
    | .ok tree => writeAll tree os
    | .error fault => (some (.file o.path fault), tree)

/-- How the command ends, and the files that it leaves. -/
structure Ending where
  status : Nat
  report : Option String
  tree : FileTree

def run (tree : FileTree) (words : List String) : Ending :=
  match Arguments.ofWords words with
  | .error refusal => ⟨refusal.status, none, tree⟩
  | .ok a =>
    match outputs tree.toFiles a with
    | .error e => ⟨1, some e.report, tree⟩
    | .ok os =>
      match writeAll tree os with
      | (none, tree) => ⟨0, none, tree⟩
      | (some e, tree) => ⟨1, some e.report, tree⟩

end CommandLine

end ProtoSchema
