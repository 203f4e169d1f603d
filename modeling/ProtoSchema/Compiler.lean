import ProtoSchema.Generator
import ProtoSchema.Sources
import ProtoSchema.Target
import ProtoSchema.WellKnown

/-!
Compilation: files are linked after everything that they import, and the generators then work on
the files that were asked for.
-/

namespace ProtoSchema

structure Compiler where
  linker : Linker := link
  /-- In the order of their names. -/
  generators : List Generator := Generator.builtIn
  recordLocations : Bool := true
  /-- The well-known files, from the time when one was first imported. -/
  wellKnown : Option Library := none

namespace Compiler

def withGenerator (c : Compiler) (g : Generator) : Compiler :=
  { c with generators := Generator.insert g c.generators }

def generatorNames (c : Compiler) : List String :=
  c.generators.map Generator.name

def describe (c : Compiler) : String :=
  "Compiler \x7b backends: [" ++
    ", ".intercalate (c.generatorNames.map fun name => Quoted.quote name.toList) ++
    "], record_source_locations: " ++ toString c.recordLocations ++
    ", well_known_built: " ++ toString c.wellKnown.isSome ++ " \x7d"

end Compiler

/-! ## Imports -/

/-- How far the files of a compilation are linked. -/
structure Progress where
  compiler : Compiler
  linked : Library := []
  /-- The paths looked for among the sources other than the roots, in order. -/
  asked : List String := []

/-- A step of a compilation. What was done before a failure is kept. -/
abbrev Linking :=
  ExceptT CompileError (StateM Progress)

namespace Linking

def add (path : String) (linked : LinkedFile) : Linking Unit :=
  modify fun p => { p with linked := p.linked ++ [(path, linked)] }

/-- Notes that a path was looked for beyond the roots. -/
def ask (roots : Sources) (path : String) : Linking Unit :=
  if path ∈ roots.paths then pure ()
  else modify fun p => { p with asked := p.asked ++ [path] }

/-- The well-known files, which are linked when they are first needed. -/
def wellKnown : Linking Library := do
  let c := (← get).compiler
  match c.wellKnown with
  | some library => pure library
  | none =>
    let library ← liftM (m := Except CompileError) (WellKnown.library c.linker)
    modify fun p => { p with compiler := { c with wellKnown := some library } }
    pure library

/-- Takes a file without a source from the well-known files. -/
def takeWellKnown (importer path : String) : Linking Unit := do
  if (WellKnown.text? path).isNone then
    throw (.missingImport importer path)
  match (← wellKnown).lookup path with
  | some linked => add path linked
  | none => throw (.missingImport importer path)

/-- Links a file whose imports are all linked. -/
def finish (path : String) (file : File) (locations : List Location) : Linking Unit := do
  let p ← get
  match p.linked.link p.compiler.linker file with
  | .ok linked =>
    add path { linked with locations := if p.compiler.recordLocations then locations else [] }
  | .error e => throw (.link e)

/-- The imports from `path` on to the innermost file of a chain, and back to `path`. -/
def cycle (path : String) (chain : List String) : List String :=
  path :: (chain.takeWhile (· ≠ path)).reverse ++ [path]

/-- Links the files under the given paths and all that they import. `chain` holds the files that
wait for these, innermost first. -/
def linkAll (roots library : Sources) (chain : List String) : List String → Linking Unit
  | [] => pure ()
  | path :: paths => do
    if ((← get).linked.lookup path).isSome then
      linkAll roots library chain paths
    else if _hc : path ∈ chain then
      throw (.circularImport path (cycle path chain))
    else
      ask roots path
      (match _ht : (roots ++ library).lookup path with
        | some text =>
          match parse path text with
          | .ok (file, locations) => do
            linkAll roots library (path :: chain) file.imports
            finish path file locations
          | .error e => throw (.parse e)
        | none => takeWellKnown (chain.head?.getD "") path)
      linkAll roots library chain paths
termination_by paths => ((roots ++ library).countOutside chain, paths.length)
decreasing_by
  · exact Prod.Lex.right _ (Nat.lt_succ_self _)
  · exact Prod.Lex.left _ _ (Sources.countOutside_lt _ht _hc)
  · exact Prod.Lex.right _ (Nat.lt_succ_self _)

end Linking

/-! ## Calls -/

/-- What a call of a compiler gives. -/
structure Outcome (α : Type) where
  result : Except CompileError α
  /-- The paths looked for among the sources other than the roots, in order. -/
  asked : List String
  /-- The compiler for the next call. -/
  compiler : Compiler

namespace Compiler

/-- Links the root files. Imports are looked for among the roots, then in the library, then among
the well-known files. -/
def link (c : Compiler) (roots library : Sources) : Outcome Library :=
  let (result, p) := (Linking.linkAll roots library [] roots.sortedPaths).run { compiler := c }
  let files := roots.sortedPaths.filterMap fun path => (p.linked.lookup path).map (path, ·)
  ⟨result.map fun _ => files, p.asked, p.compiler⟩

def plan (c : Compiler) (targets : List Target) :
    Except CompileError (List (Generator × String)) :=
  targets.mapM fun t =>
    match Generator.find? c.generators t.name with
    | some g => .ok (g, t.parameter)
    | none => .error (.unknownTarget t.name)

def emit (outputs : List Output) (file : LinkedFile) (g : Generator) (parameter : String) :
    Except GenerationError (List Output) :=
  (g.emission file parameter).run outputs

def emitAll (plan : List (Generator × String)) (files : List LinkedFile) :
    Except GenerationError (List Output) :=
  files.foldlM
    (fun outputs file => plan.foldlM (fun outputs (g, parameter) => emit outputs file g parameter)
      outputs) []

/-- Compiles the root files for every target. There are outputs only if everything succeeds. -/
def compile (c : Compiler) (roots : Sources) (targets : List Target) (library : Sources) :
    Outcome (List Output) :=
  match c.plan targets with
  | .error e => ⟨.error e, [], c⟩
  | .ok plan =>
    let linked := c.link roots library
    let result := do
      let files ← linked.result
      let outputs ← (emitAll plan (files.map Prod.snd)).mapError .generation
      return Output.sorted outputs
    ⟨result, linked.asked, linked.compiler⟩

end Compiler

end ProtoSchema
