import ProtoSchema.Generate.RustTypes
import ProtoSchema.Output
import ProtoSchema.Schema.JsonForm
import ProtoSchema.Schema.Print

/-!
Generators: what a linked file can be turned into.
-/

namespace ProtoSchema

/-- What is done with the outputs of a compilation. -/
inductive Emission where
  | done
  | fail (e : GenerationError)
  /-- Writes an output, and goes on whether it was taken or refused. -/
  | write (o : Output) (next : Except GenerationError Unit → Emission)
  /-- Looks at the outputs that are there. -/
  | look (next : List Output → Emission)

namespace Emission

def run : Emission → List Output → Except GenerationError (List Output)
  | done, outputs => .ok outputs
  | fail e, _ => .error e
  | write o next, outputs =>
    match Output.write outputs o with
    | .ok outputs => (next (.ok ())).run outputs
    | .error e => (next (.error e)).run outputs
  | look next, outputs => (next outputs).run outputs

/-- Writes outputs one after the other, up to the first that is refused. -/
def ofOutputs : List Output → Emission
  | [] => done
  | o :: os => write o fun
    | .ok _ => ofOutputs os
    | .error e => fail e

def ofResult : Except GenerationError (List Output) → Emission
  | .ok outputs => ofOutputs outputs
  | .error e => fail e

end Emission

structure Generator where
  /-- The name by which the generator is asked for. -/
  name : String
  /-- The outputs for a file under a parameter, of a generator that only writes. -/
  generate : LinkedFile → String → Except GenerationError (List Output)
  /-- What the generator does for a file under a parameter. -/
  emission : LinkedFile → String → Emission := fun file parameter =>
    .ofResult (generate file parameter)

namespace Generator

/-- A generator that writes one text for a file, if it knows the parameter. -/
def single (name extension : String) (text? : String → Option (LinkedFile → String)) :
    Generator where
  name := name
  generate file parameter :=
    match text? parameter with
    | some text => .ok [⟨Output.pathFor file.name extension, text file⟩]
    | none => .error (.invalidParameter name parameter)

def rust : Generator :=
  single "rust" "rs" fun
    | "" | "map=hash" => some fun file => RustTypes.render ⟨file, .hash⟩
    | "map=btree" => some fun file => RustTypes.render ⟨file, .btree⟩
    | _ => none

/-- The schema itself, with all types named in full. -/
def proto : Generator :=
  single "proto" "proto" fun
    | "" => some fun file => file.file.print
    | _ => none

def json : Generator :=
  single "json" "json" fun
    | "" | "pretty" => some fun file => file.file.toJson.pretty
    | "compact" => some fun file => file.file.toJson.compact
    | _ => none

def builtIn : List Generator :=
  [json, proto, rust]

/-- Puts a generator in its place in the order of names; one of the same name is replaced. -/
def insert (g : Generator) : List Generator → List Generator
  | [] => [g]
  | h :: hs =>
    if g.name = h.name then g :: hs
    else if g.name < h.name then g :: h :: hs
    else h :: insert g hs

def find? (generators : List Generator) (name : String) : Option Generator :=
  generators.find? fun g => g.name = name

end Generator

end ProtoSchema
