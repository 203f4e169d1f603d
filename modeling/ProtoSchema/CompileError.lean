import ProtoSchema.Link.Fault
import ProtoSchema.Output
import ProtoSchema.Parse

/-!
Why a compilation fails.
-/

namespace ProtoSchema

inductive CompileError where
  | parse (e : ParseError)
  /-- `importer` is empty for a file that nobody imports. -/
  | missingImport (importer path : String)
  /-- `chain` leads from `path` over imports back to `path`. -/
  | circularImport (path : String) (chain : List String)
  | link (e : LinkError)
  | generation (e : GenerationError)
  | unknownTarget (name : String)

namespace CompileError

def message : CompileError → String
  | parse e => e.message
  | missingImport importer path => importer ++ ": import \"" ++ path ++ "\" was not found"
  | circularImport path chain =>
    "circular import of \"" ++ path ++ "\" (" ++ " -> ".intercalate chain ++ ")"
  | link e => e.message
  | generation e => e.message
  | unknownTarget name => "unknown target \"" ++ name ++ "\""

end CompileError

end ProtoSchema
