import ProtoSchema.Diagnostic
import ProtoSchema.Text.Quoted

/-!
What can be wrong with a source text, and the wording of each fault.
-/

namespace ProtoSchema

inductive Fault where
  | unclosedComment
  | invalidCharacter (c : Char)
  | missingHexDigits
  | notOctal
  | missingExponent
  | gluedNumber
  | unterminatedString
  | invalidEscape
  | expected (what found : String)
  | integerRange
  | notUtf8
  | unknownSyntax (name : String)
  | unmatchedBrace
  | notTopLevel
  | lateSyntax
  | repeatedImport (path : String)
  | repeatedPackage
  | unclosedAggregate
  | unclosedBlock (construct : String)
  | nestedTooDeep
  | labelInOneof
  | missingLabel
  | requiredField
  | groupField
  | labelOnMap
  | mapInOneof
  | mapExtension
  | defaultForbidden
  | alreadySet (option : String)
  | enumDefault
  | messageDefault
  | negativeDefault
  | mixedReserved
  | emptyOneof
deriving DecidableEq, Repr

namespace Fault

def message : Fault → String
  | unclosedComment => "End-of-file inside block comment."
  | invalidCharacter c => "Invalid character " ++ Quoted.quote [c] ++ "."
  | missingHexDigits => "\"0x\" must be followed by hex digits."
  | notOctal => "Numbers starting with leading zero must be in octal."
  | missingExponent => "\"e\" must be followed by exponent."
  | gluedNumber => "Need space between number and identifier."
  | unterminatedString => "Unterminated string literal."
  | invalidEscape => "Invalid escape sequence in string literal."
  | expected what found => "Expected " ++ what ++ ", found " ++ found ++ "."
  | integerRange => "Integer out of range."
  | notUtf8 => "String literal is not valid UTF-8."
  | unknownSyntax name =>
    "Unrecognized syntax identifier \"" ++ name ++
      "\".  This parser only recognizes \"proto2\" and \"proto3\"."
  | unmatchedBrace => "Unmatched \"\x7d\"."
  | notTopLevel => "Expected top-level statement (e.g. \"message\")."
  | lateSyntax => "The \"syntax\" statement must be the first statement in the file."
  | repeatedImport path => "Import \"" ++ path ++ "\" was listed twice."
  | repeatedPackage => "Multiple package definitions."
  | unclosedAggregate => "Unexpected end of stream while parsing aggregate value."
  | unclosedBlock construct =>
    "Reached end of input in " ++ construct ++ " definition (missing '\x7d')."
  | nestedTooDeep => "Reached maximum recursion limit for nested messages."
  | labelInOneof => "Fields in oneofs must not have labels (required / optional / repeated)."
  | missingLabel => "Expected \"required\", \"optional\", or \"repeated\"."
  | requiredField => "Required fields are not allowed in proto3."
  | groupField => "Groups are not supported."
  | labelOnMap => "Field labels (required/optional/repeated) are not allowed on map fields."
  | mapInOneof => "Map fields are not allowed in oneofs."
  | mapExtension => "Map fields are not allowed to be extensions."
  | defaultForbidden => "Explicit default values are not allowed in proto3."
  | alreadySet option => "Already set option \"" ++ option ++ "\"."
  | enumDefault => "Default value for an enum field must be an identifier."
  | messageDefault => "Messages can't have default values."
  | negativeDefault => "Unsigned field can't have negative default value."
  | mixedReserved => "Reserved names and ranges must be in separate statements."
  | emptyOneof => "Oneof must have at least one field."

end Fault

def Diagnostic.ofFault (p : Position) (f : Fault) : Diagnostic :=
  ⟨p, f.message⟩

end ProtoSchema
