/-!
Texts made of indented lines.
-/

namespace ProtoSchema

/-- A line at some depth, or a gap that sets off what follows. -/
inductive Line where
  | text (depth : Nat) (content : String)
  | gap
deriving DecidableEq, Repr

namespace Line

def of (content : String) : Line :=
  .text 0 content

def indent : Line → Line
  | text depth content => text (depth + 1) content
  | gap => gap

/-- Lines set one level deeper between an opening and a closing line. -/
def block (opening : String) (body : List Line) (closing : String) : List Line :=
  of opening :: body.map indent ++ [of closing]

/-- Adds a line to a text that is kept backwards. A line without content is not indented. A gap is
an empty line, but there is none at the beginning, after another one, or after an opening brace. -/
def onto (unit : List Char) (rev : List Char) : Line → List Char
  | text depth content =>
    let blanks := if content.isEmpty then [] else (List.replicate depth unit).flatten
    '\n' :: (blanks ++ content.toList).reverse ++ rev
  | gap =>
    match rev with
    | [] => []
    | '\n' :: '\n' :: _ => rev
    | '\n' :: '\x7b' :: _ => rev
    | rev => '\n' :: rev

def render (unit : String) (lines : List Line) : String :=
  String.ofList (lines.foldl (onto unit.toList) []).reverse

end Line

end ProtoSchema
