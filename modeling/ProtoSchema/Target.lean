import ProtoSchema.CompileError
import ProtoSchema.Text.Split

/-!
Targets: a generator's name and a parameter for it.
-/

namespace ProtoSchema

structure Target where
  name : String
  parameter : String := ""
deriving DecidableEq, Repr

namespace Target

/-- Reads `name` or `name:parameter`. -/
def ofString (text : String) : Except CompileError Target :=
  let (name, parameter) := Split.once ':' text
  if name = "" then .error (.unknownTarget text) else .ok ⟨name, parameter.getD ""⟩

def render (t : Target) : String :=
  if t.parameter = "" then t.name else t.name ++ ":" ++ t.parameter

end Target

end ProtoSchema
