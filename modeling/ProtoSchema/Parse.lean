import ProtoSchema.Grammar.File

/-!
Reading a schema text. A lenient reading recovers what it can and lists what is wrong; a strict one
accepts only a text with nothing wrong in it.
-/

namespace ProtoSchema

structure Reading where
  file : File
  diagnostics : List Diagnostic
  locations : List Location
  /-- Whether every block was closed. -/
  complete : Bool

def readInto (file : File) (c : Cursor) : Reading :=
  let (_, file, c) := (Production.file .resume).run file c
  ⟨file, c.diagnostics, c.locations, !c.unterminated⟩

def readFile (path source : String) : Reading :=
  readInto { name := path } (Cursor.ofSource source)

/-- The faults that make a text unacceptable. -/
structure ParseError where
  path : String
  diagnostics : List Diagnostic
deriving DecidableEq, Repr

def ParseError.message (e : ParseError) : String :=
  Diagnostic.renderAll e.path e.diagnostics

/-- Reads a text that must have nothing wrong in it. -/
def parse (path source : String) : Except ParseError (File × List Location) :=
  let r := readFile path source
  if r.complete && r.diagnostics.isEmpty then .ok (r.file, r.locations)
  else .error ⟨path, r.diagnostics⟩

end ProtoSchema
