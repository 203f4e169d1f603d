import ProtoSchema.Decimal.Layout

/-!
JSON values and their two spellings: compact, and indented with one member or item to a line.
-/

namespace ProtoSchema

inductive Json where
  | null
  | bool (b : Bool)
  | int (n : Int)
  | double (d : Double)
  | string (s : String)
  | array (items : List Json)
  | object (members : List (String × Json))
deriving Repr

namespace Json

/-- Doubles are plain from `1e-5` up to `1e16`, and an exponent always has a sign. -/
def doubleFormat : DoubleFormat :=
  ⟨-5, 15, ['+'], .toEven⟩

def hexDigit (n : Nat) : Char :=
  if n < 10 then Char.ofNat ('0'.toNat + n) else Char.ofNat ('a'.toNat + (n - 10))

def escapeChar (c : Char) : List Char :=
  match c with
  | '"' => ['\\', '"']
  | '\\' => ['\\', '\\']
  | '\n' => ['\\', 'n']
  | '\r' => ['\\', 'r']
  | '\t' => ['\\', 't']
  | '\x08' => ['\\', 'b']
  | '\x0c' => ['\\', 'f']
  | c =>
    if c.toNat < 0x20 then ['\\', 'u', '0', '0', hexDigit (c.toNat / 16), hexDigit (c.toNat % 16)]
    else [c]

def quote (s : String) : List Char :=
  '"' :: s.toList.flatMap escapeChar ++ ['"']

/-- The text of a value that holds no others. -/
def atom : Json → List Char
  | null => "null".toList
  | bool b => if b then "true".toList else "false".toList
  | int n => (toString n).toList
  | double d => doubleFormat.spell d
  | string s => quote s
  | array _ => "[]".toList
  | object _ => ['\x7b', '\x7d']

mutual

/-- A value without any blanks. -/
def compactChars : Json → List Char
  | array items => '[' :: compactItems items ++ [']']
  | object members => '\x7b' :: compactMembers members ++ ['\x7d']
  | j => atom j

def compactItems : List Json → List Char
  | [] => []
  | [j] => compactChars j
  | j :: js => compactChars j ++ ',' :: compactItems js

def compactMembers : List (String × Json) → List Char
  | [] => []
  | [(k, j)] => quote k ++ ':' :: compactChars j
  | (k, j) :: ms => quote k ++ ':' :: compactChars j ++ ',' :: compactMembers ms

end

def newLine (depth : Nat) : List Char :=
  '\n' :: List.replicate (2 * depth) ' '

mutual

/-- A value that begins at the given depth, indented by two blanks for each level. -/
def prettyChars (depth : Nat) : Json → List Char
  | array (j :: js) =>
    '[' :: newLine (depth + 1) ++ prettyItems (depth + 1) (j :: js) ++ newLine depth ++ [']']
  | object (m :: ms) =>
    '\x7b' :: newLine (depth + 1) ++ prettyMembers (depth + 1) (m :: ms) ++ newLine depth ++
      ['\x7d']
  | j => atom j

def prettyItems (depth : Nat) : List Json → List Char
  | [] => []
  | [j] => prettyChars depth j
  | j :: js => prettyChars depth j ++ ',' :: newLine depth ++ prettyItems depth js

def prettyMembers (depth : Nat) : List (String × Json) → List Char
  | [] => []
  | [(k, j)] => quote k ++ ':' :: ' ' :: prettyChars depth j
  | (k, j) :: ms =>
    quote k ++ ':' :: ' ' :: prettyChars depth j ++ ',' :: newLine depth ++ prettyMembers depth ms

end

def compact (j : Json) : String :=
  String.ofList j.compactChars

def pretty (j : Json) : String :=
  String.ofList (j.prettyChars 0)

def member? (j : Json) (key : String) : Option Json :=
  match j with
  | object members => members.lookup key
  | _ => none

end Json

end ProtoSchema
