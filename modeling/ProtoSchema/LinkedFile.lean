import ProtoSchema.Location
import ProtoSchema.Index

/-!
Files whose references are resolved, together with the files they import.
-/

namespace ProtoSchema

/-- A file in which every type is named in full. -/
structure LinkedFile where
  file : File
  /-- The imported files, in the order of the imports. -/
  dependencies : List LinkedFile
  /-- Where the declarations stood in the text, if that was asked for. -/
  locations : List Location := []

namespace LinkedFile

def name (f : LinkedFile) : String :=
  f.file.name

def declared (f : LinkedFile) : List Declared :=
  f.file.declared

/-- The dependencies that importers of this file see as well. -/
def publicDependencies (f : LinkedFile) : List LinkedFile :=
  f.file.publicImports.filterMap fun i => f.dependencies[i]?

theorem mem_dependencies_of_mem_public {f d : LinkedFile} (h : d ∈ f.publicDependencies) :
    d ∈ f.dependencies := by
  obtain ⟨i, _, hi⟩ := List.mem_filterMap.mp h
  exact List.mem_of_getElem? hi

theorem sizeOf_dependencies_lt (f : LinkedFile) : sizeOf f.dependencies < sizeOf f := by
  cases f
  simp only [LinkedFile.mk.sizeOf_spec]
  omega

theorem sizeOf_lt_of_mem {f d : LinkedFile} (h : d ∈ f.dependencies) : sizeOf d < sizeOf f :=
  Nat.lt_trans (List.sizeOf_lt_of_mem h) f.sizeOf_dependencies_lt

theorem sizeOf_append (fs gs : List LinkedFile) :
    sizeOf (fs ++ gs) + 1 = sizeOf fs + sizeOf gs := by
  induction fs with
  | nil => simp [Nat.add_comm]
  | cons f fs ih =>
    simp only [List.cons_append, List.cons.sizeOf_spec]
    omega

/-- The files of a queue and all that they import, one file of each name, nearest first. -/
def reach (found : List LinkedFile) : List LinkedFile → List LinkedFile
  | [] => found
  | f :: queue =>
    if found.any fun g => g.name = f.name then reach found queue
    else reach (found ++ [f]) (queue ++ f.dependencies)
termination_by queue => sizeOf queue
decreasing_by
  · simp only [List.cons.sizeOf_spec]
    omega
  · have := sizeOf_append queue f.dependencies
    have := f.sizeOf_dependencies_lt
    simp only [List.cons.sizeOf_spec]
    omega

/-- Every file that is imported by this one or by its dependencies, nearest first. -/
def transitiveDependencies (f : LinkedFile) : List LinkedFile :=
  reach [] f.dependencies

/-- Adds a file, and what it passes on, to the files that are seen already. -/
def see (seen : List LinkedFile) (f : LinkedFile) : List LinkedFile :=
  if seen.any fun g => g.name = f.name then seen
  else f.publicDependencies.attach.foldr (fun d seen => see seen d.1) (seen ++ [f])
termination_by sizeOf f
decreasing_by exact sizeOf_lt_of_mem (mem_dependencies_of_mem_public d.2)

/-- The files that an importer of `dependencies` sees: they themselves and, over any number of
steps, what they import publicly. -/
def visible (dependencies : List LinkedFile) : List LinkedFile :=
  dependencies.foldl see []

/-- The position of a full name in the index of the file. -/
def position? (f : LinkedFile) (fullName : String) : Option Nat :=
  f.file.index.findIdx? fun e => e.fullName = fullName

/-- The declaration with the given full name, which may be led by a dot. -/
def get? (f : LinkedFile) (name : String) : Option Declared :=
  (f.position? (Name.bare name)).bind fun i => f.file.index[i]?.bind fun e =>
    (f.file.at? e.path).map (⟨e.fullName, ·⟩)

/-- The declaration with the given full name in this file or in one that it depends on. -/
def find? (f : LinkedFile) (name : String) : Option (LinkedFile × Declared) :=
  (f :: f.transitiveDependencies).findSome? fun g => (g.get? name).map (g, ·)

end LinkedFile

end ProtoSchema
