import ProtoSchema.Grammar.Enum
import ProtoSchema.Grammar.Field
import ProtoSchema.Schema.Oneof

/-!
Messages, with all that can be declared inside them.
-/

namespace ProtoSchema

structure Mode where
  dialect : Dialect
  recovery : Recovery

namespace Production

variable {σ : Type}

/-- A block that adds fields to the message with the given name. -/
def extend (mode : Mode) (path : List Int) (extensions : List Field) :
    Production σ (List Field) := do
  let _ ← bump
  let extendee ← typeName
  symbol "\x7b"
  build extensions (block mode.recovery "extend" (extendStatement mode.dialect extendee path))

def messageField (dialect : Dialect) (path : List Int) (oneof : Option Nat) :
    Production Message Unit := do
  let index := (← built).fields.length
  let (f, entry) ← field dialect (Location.child path Location.messageField index) oneof.isSome
  edit fun m => m.addField oneof f entry

def oneofStatement (dialect : Dialect) (path : List Int) (index : Nat) :
    Production Message Unit := do
  if ← atWord "option" then
    optionStatement fun s m =>
      { m with oneofs := m.oneofs.modify index fun o => { o with options := o.options ++ [s] } }
  else if ← eatSymbol ";" then return ()
  else messageField dialect path (some index)

def oneof (mode : Mode) (path : List Int) : Production Message Unit := do
  let start ← here
  let _ ← bump
  let name ← identifier "oneof name"
  symbol "\x7b"
  let index := (← built).oneofs.length
  edit fun m => { m with oneofs := m.oneofs ++ [{ name }] }
  block mode.recovery "oneof" (oneofStatement mode.dialect path index)
  if ((← built).oneofs[index]?.map fun o => o.fields.isEmpty).getD true then
    report start .emptyOneof
  record (Location.child path Location.messageOneof index) start

def extensionRange : Production Message Unit := do
  let start ← fieldNumber
  let last ← rangeEnd .message start
  edit fun m => { m with extensionRanges := m.extensionRanges ++ [⟨start, afterNumber last, []⟩] }

/-- Numbers left open to extensions. Options behind them belong to each range of the statement. -/
def extensionsStatement : Production Message Unit := do
  let _ ← bump
  let before := (← built).extensionRanges.length
  let _ ← sepBy "," extensionRange
  if ← atSymbol "[" then
    let options ← bracketedOptions
    edit fun m =>
      { m with
        extensionRanges :=
          m.extensionRanges.take before ++
            (m.extensionRanges.drop before).map fun r => { r with options } }
  endOfStatement

/-- One statement of a message. `nested` reads a message inside it. -/
def messageStatement (mode : Mode) (path : List Int)
    (nested : List Int → Production Message Message) : Production Message Unit := do
  if ← eatSymbol ";" then return ()
  else
    let token ← peek
    if token.isWord "message" then
      let index := (← built).nested.length
      let inner ← nested (Location.child path Location.messageNested index)
      edit fun m => { m with nested := m.nested ++ [inner] }
    else if token.isWord "enum" then
      let index := (← built).enums.length
      let e ← enum mode.recovery (Location.child path Location.messageEnum index)
      edit fun m => { m with enums := m.enums ++ [e] }
    else if token.isWord "extensions" then extensionsStatement
    else if token.isWord "reserved" then
      reservedStatement .message
        (fun r m => { m with reservedRanges := m.reservedRanges ++ [r] })
        fun n m => { m with reservedNames := m.reservedNames ++ [n] }
    else if token.isWord "extend" then
      let extensions ← extend mode (path ++ [Location.messageExtension]) (← built).extensions
      edit fun m => { m with extensions }
    else if token.isWord "option" then
      optionStatement fun s m => { m with options := m.options ++ [s] }
    else if token.isWord "oneof" then oneof mode path
    else messageField mode.dialect path none

def skip : Production σ Unit :=
  move (fun c => ((), c.skipStatement)) Cursor.skipStatement_onward

/-- A message in which messages may nest `budget` deep, itself counted. -/
def message (mode : Mode) : (budget : Nat) → {σ : Type} → List Int → Production σ Message
  | 0, _, _ => do
    report (← here) .nestedTooDeep
    let _ ← bump
    skip
    fail
  | budget + 1, _, path => do
    let start ← here
    let _ ← bump
    let name ← identifier "message name"
    symbol "\x7b"
    let m ← build ({ name } : Message)
      (block mode.recovery "message" (messageStatement mode path (message mode budget)))
    record path start
    return m.withSyntheticOneofs

end Production

end ProtoSchema
