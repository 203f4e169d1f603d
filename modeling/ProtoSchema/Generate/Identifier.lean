/-!
Identifiers of Rust code made from the names of a schema.
-/

namespace ProtoSchema.Identifier

def keywords : List String :=
  ["as", "async", "await", "break", "const", "continue", "dyn", "else", "enum", "extern", "false",
    "fn", "for", "if", "impl", "in", "let", "loop", "match", "mod", "move", "mut", "pub", "ref",
    "return", "static", "struct", "trait", "true", "type", "unsafe", "use", "where", "while",
    "abstract", "become", "box", "do", "final", "gen", "macro", "override", "priv", "try",
    "typeof", "unsized", "virtual", "yield"]

/-- Words that cannot even be written as raw identifiers. -/
def pathWords : List String :=
  ["self", "super", "crate", "Self"]

/-- A name as it is, marked if it would be a keyword. -/
def plain (name : String) : String :=
  if name ∈ pathWords then name ++ "_"
  else if name ∈ keywords then "r#" ++ name
  else name

def upperCamelChars (upper : Bool) : List Char → List Char
  | [] => []
  | c :: cs =>
    if c = '_' then upperCamelChars true cs
    else (if upper then c.toUpper else c) :: upperCamelChars false cs

/-- The name of a type: `payment_method` becomes `PaymentMethod`. -/
def typeName (name : String) : String :=
  let camel := String.ofList (upperCamelChars true name.toList)
  if camel = "Self" then "Self_" else camel

/-- The name of an enum's variant: `TYPE_DOUBLE` becomes `TypeDouble`. -/
def variant (name : String) : String :=
  typeName (String.ofList (name.toList.map Char.toLower))

/-- `breakable` tells whether a capital letter would start a new word. -/
def snakeChars (breakable : Bool) : List Char → List Char
  | [] => []
  | c :: cs =>
    if c.isUpper then
      (if breakable then ['_', c.toLower] else [c.toLower]) ++ snakeChars false cs
    else c :: snakeChars (c.isLower || c.isDigit) cs

/-- `HttpRequest` becomes `http_request`. -/
def snake (name : String) : String :=
  String.ofList (snakeChars false name.toList)

/-- The module that holds what is declared in a message. -/
def moduleName (message : String) : String :=
  plain (snake message)

inductive Form where
  | same
  | marked
  | snake
  | camel
  | variant
deriving DecidableEq, Repr

def Form.write : Form → String → String
  | same => id
  | marked => plain
  | snake => moduleName
  | camel => typeName
  | variant => Identifier.variant

end ProtoSchema.Identifier

namespace ProtoSchema

structure Identifier where
  form : Identifier.Form
  source : String
deriving DecidableEq, Repr

def Identifier.text (x : Identifier) : String :=
  x.form.write x.source

end ProtoSchema
