import ProtoSchema.Grammar.Message
import ProtoSchema.Grammar.Service

/-!
Whole files.
-/

namespace ProtoSchema

namespace File

inductive ImportKind where
  | plain
  | shared
  | weak
deriving DecidableEq, Repr

def addImport (file : File) (kind : ImportKind) (path : String) : File :=
  let index := file.imports.length
  { file with
    imports := file.imports ++ [path]
    publicImports := file.publicImports ++ if kind = .shared then [index] else []
    weakImports := file.weakImports ++ if kind = .weak then [index] else [] }

end File

namespace Production

def syntaxStatement : Production File Unit := do
  let _ ← bump
  symbol "="
  let start ← here
  let name ← utf8String "syntax identifier"
  match Dialect.ofKeyword? name with
  | none => reject start (.unknownSyntax name)
  | some dialect =>
    edit fun f => { f with dialect }
    endOfStatement

def importKind : Production File File.ImportKind := do
  if ← eatWord "public" then return .shared
  else if ← eatWord "weak" then return .weak
  else return .plain

def importStatement : Production File Unit := do
  let _ ← bump
  let kind ← importKind
  let start ← here
  let path ← utf8String "a string naming the file to import"
  if (← built).imports.contains path then report start (.repeatedImport path)
  else edit fun f => f.addImport kind path
  endOfStatement

/-- The package of a file. The first one counts. -/
def packageStatement : Production File Unit := do
  let start ← here
  let _ ← bump
  if (← built).package.isSome then report start .repeatedPackage
  let first ← identifier "package name"
  let name ← restOfName first
  edit fun f => { f with package := some (f.package.getD name) }
  endOfStatement

def topLevelStatement (mode : Mode) : Production File Unit := do
  if ← eatSymbol ";" then return ()
  else
    let token ← peek
    if token.isWord "message" then
      let index := (← built).messages.length
      let m ← message mode Message.maxNesting [Location.fileMessage, Int.ofNat index]
      edit fun f => { f with messages := f.messages ++ [m] }
    else if token.isWord "enum" then
      let index := (← built).enums.length
      let e ← enum mode.recovery [Location.fileEnum, Int.ofNat index]
      edit fun f => { f with enums := f.enums ++ [e] }
    else if token.isWord "service" then
      let index := (← built).services.length
      let v ← service mode.recovery [Location.fileService, Int.ofNat index]
      edit fun f => { f with services := f.services ++ [v] }
    else if token.isWord "extend" then
      let extensions ← extend mode [Location.fileExtension] (← built).extensions
      edit fun f => { f with extensions }
    else if token.isWord "import" then importStatement
    else if token.isWord "package" then packageStatement
    else if token.isWord "option" then
      optionStatement fun s f => { f with options := f.options ++ [s] }
    else if token.isWord "syntax" then rejectHere .lateSyntax
    else rejectHere .notTopLevel

/-- Moves from before the first token onto it. -/
def open_ : Production File Unit :=
  move (fun c => ((), if c.current.kind = .start then c.next else c)) fun c => by
    dsimp only
    split
    · exact c.next_onward
    · exact .refl c

/-- A whole file. Its language is the one it had before unless it names one. -/
def file (recovery : Recovery) : Production File Unit := do
  open_
  if ← atWord "syntax" then tolerate recovery syntaxStatement
  let dialect := (← built).dialect
  statements recovery (topLevelStatement ⟨dialect, recovery⟩)

end Production

end ProtoSchema
