import ProtoSchema.Name
import ProtoSchema.Schema.File

/-!
The declarations of a file that have a name in full: messages, enums and services.
-/

namespace ProtoSchema

inductive Kind where
  | message
  | enum
  | service
deriving DecidableEq, Repr

namespace Kind

def word : Kind → String
  | message => "message"
  | enum => "enum"
  | service => "service"

end Kind

inductive Declaration where
  | message (m : Message)
  | enum (e : Enum)
  | service (s : Service)
deriving DecidableEq, Repr

namespace Declaration

def kind : Declaration → Kind
  | message _ => .message
  | enum _ => .enum
  | service _ => .service

def name : Declaration → String
  | message m => m.name
  | enum e => e.name
  | service s => s.name

def message? : Declaration → Option Message
  | message m => some m
  | _ => none

def enum? : Declaration → Option Enum
  | enum e => some e
  | _ => none

end Declaration

/-- A declaration and its name in full, without a leading dot. -/
structure Declared where
  fullName : String
  declaration : Declaration
deriving DecidableEq, Repr

namespace Declared

def kind (d : Declared) : Kind :=
  d.declaration.kind

def find? (declared : List Declared) (fullName : String) : Option Declared :=
  declared.find? fun d => d.fullName = fullName

/-- The first full name that is declared a second time. -/
def firstRepeated? (seen : List String) : List Declared → Option String
  | [] => none
  | d :: ds => if d.fullName ∈ seen then some d.fullName else firstRepeated? (d.fullName :: seen) ds

end Declared

namespace Enum

def declared (scope : String) (e : Enum) : Declared :=
  ⟨Name.qualify scope e.name, .enum e⟩

end Enum

namespace Message

mutual

/-- A message, then what is declared in it: its messages, then its enums. -/
def declared (scope : String) : Message → List Declared
  | m@⟨name, _, _, nested, enums, _, _, _, _, _⟩ =>
    ⟨Name.qualify scope name, .message m⟩ ::
      (declaredIn (Name.qualify scope name) nested ++
        enums.map (Enum.declared (Name.qualify scope name)))

def declaredIn (scope : String) : List Message → List Declared
  | [] => []
  | m :: ms => declared scope m ++ declaredIn scope ms

end

end Message

namespace File

def scope (file : File) : String :=
  file.package.getD ""

/-- Everything declared in a file: messages, enums, services. -/
def declared (file : File) : List Declared :=
  Message.declaredIn file.scope file.messages ++ file.enums.map (Enum.declared file.scope) ++
    file.services.map fun s => ⟨Name.qualify file.scope s.name, .service s⟩

end File

end ProtoSchema
