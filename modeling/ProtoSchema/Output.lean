/-!
The files that generators write.
-/

namespace ProtoSchema

structure Output where
  path : String
  content : String
deriving DecidableEq, Repr

inductive GenerationError where
  | duplicateOutput (path : String)
  | invalidParameter (target parameter : String)
  | failed (target message : String)
deriving DecidableEq, Repr

namespace GenerationError

def message : GenerationError → String
  | duplicateOutput path => "output \"" ++ path ++ "\" was generated twice"
  | invalidParameter target parameter =>
    target ++ ": unsupported parameter \"" ++ parameter ++ "\""
  | failed target message => target ++ ": " ++ message

end GenerationError

namespace Output

/-- Adds an output to those before it. No two may have the same path. -/
def write (outputs : List Output) (o : Output) : Except GenerationError (List Output) :=
  if outputs.any fun p => p.path = o.path then .error (.duplicateOutput o.path)
  else .ok (outputs ++ [o])

def sorted (outputs : List Output) : List Output :=
  outputs.mergeSort fun a b => a.path ≤ b.path

/-- The path of a schema file with another extension. -/
def pathFor (schema extension : String) : String :=
  let stem :=
    if ".proto".toList.isSuffixOf schema.toList then
      String.ofList (schema.toList.take (schema.length - ".proto".length))
    else schema
  stem ++ "." ++ extension

end Output

end ProtoSchema
