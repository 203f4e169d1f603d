import ProtoSchema.Text.Printable

/-!
How a message quotes a piece of text: between double quotes, with the characters that cannot be
shown written as escapes.
-/

namespace ProtoSchema.Quoted

def hexNumber (c : Char) : List Char :=
  Nat.toDigits 16 c.toNat

def showChar (c : Char) : List Char :=
  match c with
  | '\x00' => ['\\', '0']
  | '\t' => ['\\', 't']
  | '\r' => ['\\', 'r']
  | '\n' => ['\\', 'n']
  | '\\' => ['\\', '\\']
  | '"' => ['\\', '"']
  | c =>
    if Printable.isPrintable c then [c]
    else ['\\', 'u', '\x7b'] ++ hexNumber c ++ ['\x7d']

def quote (cs : List Char) : String :=
  String.ofList ('"' :: cs.flatMap showChar ++ ['"'])

end ProtoSchema.Quoted
