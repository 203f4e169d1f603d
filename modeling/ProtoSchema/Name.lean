import ProtoSchema.Text.Split

/-!
Dotted names and the scopes around them.
-/

namespace ProtoSchema.Name

/-- A name inside a scope; the empty scope is the outermost one. -/
def qualify (scope name : String) : String :=
  if scope = "" then name else scope ++ "." ++ name

/-- What stands before the last dot, or nothing. -/
def outer (name : String) : String :=
  String.ofList ((name.toList.reverse.dropWhile (· ≠ '.')).drop 1).reverse

/-- What stands behind the last dot, or the whole name. -/
def last (name : String) : String :=
  String.ofList (name.toList.reverse.takeWhile (· ≠ '.')).reverse

/-- What stands before the first dot of a name with a dot in it. -/
def first? (name : String) : Option String :=
  if '.' ∈ name.toList then some (String.ofList (name.toList.takeWhile (· ≠ '.'))) else none

/-- The name behind a leading dot, which says that it is given in full. -/
def absolute? (name : String) : Option String :=
  match name.toList with
  | '.' :: rest => some (String.ofList rest)
  | _ => none

/-- The parts of a name between its dots. -/
def components (name : String) : List String :=
  Split.parts '.' name

/-- The name without the dot that may lead it. -/
def bare (name : String) : String :=
  (absolute? name).getD name

theorem length_outer_lt {name : String} (h : name ≠ "") : (outer name).length < name.length := by
  have hpos : 0 < name.toList.length := by
    rw [List.length_pos_iff]
    intro hnil
    exact h (String.toList_eq_nil_iff.mp hnil)
  have hle := (List.dropWhile_sublist (l := name.toList.reverse) (· ≠ '.')).length_le
  rw [List.length_reverse] at hle
  simp only [outer, String.length_ofList, List.length_reverse, List.length_drop,
    String.length_toList] at *
  omega

/-- A scope and the scopes around it, innermost first; the last one is the outermost scope. -/
def scopes (name : String) : List String :=
  if name = "" then [""] else name :: scopes (outer name)
termination_by name.length
decreasing_by exact length_outer_lt ‹_›

end ProtoSchema.Name
