import ProtoSchema.Diagnostic

/-!
Where the declarations of a file stand in its text. A declaration is named by the path that leads
to it from the file: pairs of a tag and an index.
-/

namespace ProtoSchema

/-- From the first character to just past the last one. -/
structure Span where
  start : Position
  finish : Position
deriving DecidableEq, Repr

structure Location where
  path : List Int
  span : Span
deriving DecidableEq, Repr

namespace Location

/-! The tag of each kind of declaration inside the declaration that holds it. -/

def fileMessage : Int := 4
def fileEnum : Int := 5
def fileService : Int := 6
def fileExtension : Int := 7
def messageField : Int := 2
def messageNested : Int := 3
def messageEnum : Int := 4
def messageExtension : Int := 6
def messageOneof : Int := 8
def enumValue : Int := 2
def serviceMethod : Int := 2

/-- The path of the declaration number `index` under `tag`. -/
def child (path : List Int) (tag : Int) (index : Nat) : List Int :=
  path ++ [tag, Int.ofNat index]

def find? (table : List Location) (path : List Int) : Option Location :=
  table.find? fun l => l.path = path

end Location

end ProtoSchema
