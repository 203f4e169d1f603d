/-!
Places in a source text and the remarks made about them.
-/

namespace ProtoSchema

/-- Lines and columns are counted from one; a column counts characters. -/
structure Position where
  line : Nat
  column : Nat
deriving DecidableEq, Repr, Inhabited

namespace Position

def origin : Position :=
  ⟨1, 1⟩

def step (p : Position) (c : Char) : Position :=
  if c = '\n' then ⟨p.line + 1, 1⟩ else ⟨p.line, p.column + 1⟩

def advance (p : Position) (cs : List Char) : Position :=
  cs.foldl step p

theorem advance_append (p : Position) (as bs : List Char) :
    p.advance (as ++ bs) = (p.advance as).advance bs := by
  simp [advance]

end Position

/-- A remark about one place of a source text. -/
structure Diagnostic where
  position : Position
  message : String
deriving DecidableEq, Repr

namespace Diagnostic

/-- A diagnostic as `line:column: message`. -/
def render (d : Diagnostic) : String :=
  toString d.position.line ++ ":" ++ toString d.position.column ++ ": " ++ d.message

/-- Diagnostics of one file, a line each, every line led by the file's path. -/
def renderAll (path : String) (ds : List Diagnostic) : String :=
  "\n".intercalate (ds.map fun d => path ++ ":" ++ d.render)

end Diagnostic

end ProtoSchema
