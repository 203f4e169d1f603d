import ProtoSchema.Declaration

/-!
The index of a file: its declarations by full name and kind, each with the path that leads to it.
-/

namespace ProtoSchema

/-- One step from a file or a message to a declaration right inside it. -/
inductive Step where
  | message (index : Nat)
  | enum (index : Nat)
  | service (index : Nat)
deriving DecidableEq, Repr

abbrev Placed :=
  List Step × Declared

namespace Placed

def behind (step : Step) (x : Placed) : Placed :=
  (step :: x.1, x.2)

def leaves {α : Type} (step : Nat → Step) (declare : α → Declared) (xs : List α) : List Placed :=
  xs.zipIdx.map fun x => ([step x.2], declare x.1)

end Placed

namespace Message

mutual

/-- What is declared in a message, each with the path to it. -/
def placed (scope : String) : Message → List Placed
  | m@⟨name, _, _, nested, enums, _, _, _, _, _⟩ =>
    ([], ⟨Name.qualify scope name, .message m⟩) ::
      (placedIn (Name.qualify scope name) 0 nested ++
        Placed.leaves .enum (Enum.declared (Name.qualify scope name)) enums)

def placedIn (scope : String) (first : Nat) : List Message → List Placed
  | [] => []
  | m :: ms => (placed scope m).map (.behind (.message first)) ++ placedIn scope (first + 1) ms

end

/-- The declaration at the end of a path that begins at a message. -/
def at? (m : Message) : List Step → Option Declaration
  | [] => some (.message m)
  | .message i :: path => m.nested[i]?.bind fun n => n.at? path
  | [.enum i] => m.enums[i]?.map .enum
  | _ => none

end Message

/-- What the index of a file says of a declaration. -/
structure IndexEntry where
  fullName : String
  kind : Kind
  /-- Where the declaration stands in its file. -/
  path : List Step
deriving DecidableEq, Repr

namespace File

/-- What is declared in a file, each with the path to it. -/
def placed (file : File) : List Placed :=
  Message.placedIn file.scope 0 file.messages ++
    (Placed.leaves .enum (Enum.declared file.scope) file.enums ++
      Placed.leaves .service
        (fun s => ⟨Name.qualify file.scope s.name, .service s⟩) file.services)

def index (file : File) : List IndexEntry :=
  file.placed.map fun x => ⟨x.2.fullName, x.2.kind, x.1⟩

def at? (file : File) : List Step → Option Declaration
  | .message i :: path => file.messages[i]?.bind fun m => m.at? path
  | [.enum i] => file.enums[i]?.map .enum
  | [.service i] => file.services[i]?.map .service
  | _ => none

end File

end ProtoSchema
