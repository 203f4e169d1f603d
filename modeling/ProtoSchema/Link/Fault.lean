import ProtoSchema.Schema.Field

/-!
What can be wrong with a file when its references are resolved.
-/

namespace ProtoSchema

/-- What a type name stands in. -/
inductive Referrer where
  | field (fullName : String)
  | extension (fullName : String)
  | method (fullName : String)
deriving DecidableEq, Repr

namespace Referrer

def render : Referrer → String
  | field fullName => "field " ++ fullName
  | extension fullName => "extension " ++ fullName
  | method fullName => "method " ++ fullName

end Referrer

inductive LinkFault where
  /-- An import without a dependency of its name in its place. -/
  | unlinkedImport (path : String)
  | dependencyCount (supplied imports : Nat)
  | nestedTooDeep (message : String)
  | alreadyDefined (fullName : String)
  | undefinedType (name : String) (referrer : Referrer)
  | notAMessage (name : String) (referrer : Referrer)
  | notAType (fullName : String) (referrer : Referrer)
  | noType (referrer : Referrer)
  | defaultOfMessage (referrer : Referrer)
  | fieldNumberRange (number : Int32) (field : String)
  | fieldNumberReserved (number : Int32) (field : String)
  | sameFieldNumber (number : Int32) (first second : String)
  | sameFieldName (field message : String)
  | enumWithoutValues (fullName : String)
  | enumNotFromZero (fullName : String)
  /-- A rule of a linker other than the standard one. -/
  | other (message : String)
deriving DecidableEq, Repr

namespace LinkFault

def message : LinkFault → String
  | unlinkedImport path => "dependency \"" ++ path ++ "\" was not linked"
  | dependencyCount supplied imports =>
    toString supplied ++ " linked dependencies supplied for " ++ toString imports ++ " imports"
  | nestedTooDeep name => "message \"" ++ name ++ "\" is nested more than 32 levels deep"
  | alreadyDefined fullName => "\"" ++ fullName ++ "\" is already defined"
  | undefinedType name r => "\"" ++ name ++ "\" is not defined (referenced by " ++ r.render ++ ")"
  | notAMessage name r =>
    "\"" ++ name ++ "\" referenced by " ++ r.render ++ " is not a message type"
  | notAType fullName r => "\"" ++ fullName ++ "\" used by " ++ r.render ++ " is not a type"
  | noType r => r.render ++ " has no type"
  | defaultOfMessage r => r.render ++ ": messages can't have default values"
  | fieldNumberRange number field =>
    "field number " ++ toString number.toInt ++ " of " ++ field ++
      " must be between 1 and 536870911"
  | fieldNumberReserved number field =>
    "field number " ++ toString number.toInt ++ " of " ++ field ++
      " falls in the range reserved for the protobuf implementation (19000 to 19999)"
  | sameFieldNumber number first second =>
    "field number " ++ toString number.toInt ++ " is used by both " ++ first ++ " and " ++ second
  | sameFieldName field message => "duplicate field name \"" ++ field ++ "\" in " ++ message
  | enumWithoutValues fullName => "enum " ++ fullName ++ " has no values"
  | enumNotFromZero fullName => "the first value of proto3 enum " ++ fullName ++ " must be zero"
  | other message => message

end LinkFault

structure LinkError where
  file : String
  fault : LinkFault
deriving DecidableEq, Repr

namespace LinkError

def message (e : LinkError) : String :=
  e.file ++ ": " ++ e.fault.message

end LinkError

end ProtoSchema
