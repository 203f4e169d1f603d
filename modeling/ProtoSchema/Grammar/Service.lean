import ProtoSchema.Grammar.Option
import ProtoSchema.Grammar.Recovery
import ProtoSchema.Schema.File

/-!
Services and their methods.
-/

namespace ProtoSchema.Production

variable {σ : Type}

/-- The type a method takes or gives, and whether it is a stream of them. -/
def methodType : Production σ (Bool × String) := do
  symbol "("
  let streaming ← eatWord "stream"
  let name ← typeName
  symbol ")"
  return (streaming, name)

def methodStatement : Production Method Unit := do
  if ← eatSymbol ";" then return ()
  else if ← atWord "option" then
    optionStatement fun s m => { m with options := m.options ++ [s] }
  else expected (quoted "option")

def method (recovery : Recovery) (path : List Int) : Production σ Method := do
  let start ← here
  let _ ← bump
  let name ← identifier "method name"
  let (clientStreaming, inputType) ← methodType
  word "returns"
  let (serverStreaming, outputType) ← methodType
  let bare : Method := { name, inputType, outputType, clientStreaming, serverStreaming }
  let m ←
    if ← eatSymbol "\x7b" then build bare (block recovery "method" methodStatement)
    else do
      endOfStatement
      pure bare
  record path start
  return m

def serviceStatement (recovery : Recovery) (path : List Int) : Production Service Unit := do
  if ← eatSymbol ";" then return ()
  else if ← atWord "option" then
    optionStatement fun s v => { v with options := v.options ++ [s] }
  else if ← atWord "rpc" then
    let index := (← built).methods.length
    let m ← method recovery (Location.child path Location.serviceMethod index)
    edit fun v => { v with methods := v.methods ++ [m] }
  else expected (quoted "rpc")

def service (recovery : Recovery) (path : List Int) : Production σ Service := do
  let start ← here
  let _ ← bump
  let name ← identifier "service name"
  symbol "\x7b"
  let v ← build ({ name } : Service) (block recovery "service" (serviceStatement recovery path))
  record path start
  return v

end ProtoSchema.Production
