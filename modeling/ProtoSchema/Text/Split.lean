/-!
Texts in parts.
-/

namespace ProtoSchema.Split

/-- The parts of a text between the places where a character stands. There is always one. -/
def chars (separator : Char) : List Char → List (List Char)
  | [] => [[]]
  | c :: cs =>
    if c = separator then [] :: chars separator cs
    else
      match chars separator cs with
      | [] => [[c]]
      | part :: parts => (c :: part) :: parts

def parts (separator : Char) (text : String) : List String :=
  (chars separator text.toList).map String.ofList

/-- What stands before the first place of a character, and what stands behind it if there is one. -/
def once (separator : Char) (text : String) : String × Option String :=
  match text.toList.dropWhile (· ≠ separator) with
  | [] => (text, none)
  | _ :: rest => (String.ofList (text.toList.takeWhile (· ≠ separator)), some (String.ofList rest))

end ProtoSchema.Split
