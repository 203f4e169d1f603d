import ProtoSchema.Schema.Message

/-!
Services and whole files.
-/

namespace ProtoSchema

structure Method where
  name : String
  inputType : String
  outputType : String
  clientStreaming : Bool := false
  serverStreaming : Bool := false
  options : Options := []
deriving DecidableEq, Repr

structure Service where
  name : String
  methods : List Method := []
  options : Options := []
deriving DecidableEq, Repr

structure File where
  /-- The path by which other files import this one. -/
  name : String
  package : Option String := none
  dialect : Dialect := .proto2
  /-- The imported paths in the order of their imports. -/
  imports : List String := []
  /-- The places of the public imports in `imports`. -/
  publicImports : List Nat := []
  /-- The places of the weak imports in `imports`. -/
  weakImports : List Nat := []
  messages : List Message := []
  enums : List Enum := []
  services : List Service := []
  extensions : List Field := []
  options : Options := []
deriving DecidableEq, Repr

end ProtoSchema
