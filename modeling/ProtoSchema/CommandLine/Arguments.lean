import ProtoSchema.Target

/-!
The arguments of the command.
-/

namespace ProtoSchema

structure Arguments where
  /-- Paths of schemas, looked for like imports. -/
  inputs : List String := []
  includes : List String := []
  targets : List Target := []
  outDirectory : Option String := none
  verbosity : Nat := 0
deriving DecidableEq, Repr

/-- Why there is nothing to run. -/
inductive Refusal where
  | usage
  | help
  | version
deriving DecidableEq, Repr

namespace Refusal

/-- Asking for help or the version is no mistake. -/
def status : Refusal → Nat
  | usage => 2
  | help | version => 0

end Refusal

/-- An option that takes a value. -/
inductive ValueOption where
  | searchDirectory
  | target
  | outDirectory
deriving DecidableEq, Repr

namespace ValueOption

def ofShort? : Char → Option ValueOption
  | 'I' => some .searchDirectory
  | 't' => some .target
  | 'o' => some .outDirectory
  | _ => none

def ofLong? : String → Option ValueOption
  | "proto-path" => some .searchDirectory
  | "target" => some .target
  | "out-dir" => some .outDirectory
  | _ => none

end ValueOption

namespace Arguments

/-- Gives a value to an option. Directories have a name, and there is one output directory. -/
def store (a : Arguments) (option : ValueOption) (value : String) : Except Refusal Arguments :=
  match option with
  | .searchDirectory =>
    if value = "" then .error .usage else .ok { a with includes := a.includes ++ [value] }
  | .target =>
    match Target.ofString value with
    | .ok target => .ok { a with targets := a.targets ++ [target] }
    | .error _ => .error .usage
  | .outDirectory =>
    if value = "" || a.outDirectory.isSome then .error .usage
    else .ok { a with outDirectory := some value }

/-- An option that waits for its value, and the value if it is already there. -/
abbrev Pending :=
  Option (ValueOption × Option String)

/-- The letters behind a single dash. What follows an option with a value is its value, with or
without an equals sign before it. -/
def readShort (a : Arguments) : List Char → Except Refusal (Arguments × Pending)
  | [] => .ok (a, none)
  | c :: cs =>
    if c = 'v' then readShort { a with verbosity := a.verbosity + 1 } cs
    else if c = 'h' then .error .help
    else if c = 'V' then .error .version
    else
      match ValueOption.ofShort? c, cs with
      | some option, [] => .ok (a, some (option, none))
      | some option, '=' :: value => .ok (a, some (option, some (String.ofList value)))
      | some option, value => .ok (a, some (option, some (String.ofList value)))
      | none, _ => .error .usage

/-- The name behind two dashes, with or without an equals sign and a value. -/
def readLong (a : Arguments) (text : String) : Except Refusal (Arguments × Pending) :=
  let (name, value) := Split.once '=' text
  match ValueOption.ofLong? name with
  | some option => .ok (a, some (option, value))
  | none =>
    if value.isSome then .error .usage
    else
      match name with
      | "verbose" => .ok ({ a with verbosity := a.verbosity + 1 }, none)
      | "help" => .error .help
      | "version" => .error .version
      | _ => .error .usage

inductive Word where
  | short (letters : List Char)
  | long (text : String)
  /-- Two dashes alone: everything that follows is an input. -/
  | endOfOptions
  | plain (text : String)
deriving DecidableEq, Repr

def Word.ofString (text : String) : Word :=
  match text.toList with
  | ['-', '-'] => .endOfOptions
  | '-' :: '-' :: rest => .long (String.ofList rest)
  | '-' :: c :: rest => .short (c :: rest)
  | _ => .plain text

/-- Reads what a word says by itself. -/
def readWord (a : Arguments) : Word → Except Refusal (Arguments × Pending)
  | .short letters => a.readShort letters
  | .long text => a.readLong text
  | .endOfOptions => .ok (a, none)
  | .plain text => .ok ({ a with inputs := a.inputs ++ [text] }, none)

/-- Reads words from left to right, up to the first mistake or the first call for help. -/
def read (a : Arguments) : List String → Except Refusal Arguments
  | [] => .ok a
  | word :: words =>
    if Word.ofString word = .endOfOptions then .ok { a with inputs := a.inputs ++ words }
    else
      match a.readWord (Word.ofString word) with
      | .error refusal => .error refusal
      | .ok (a, none) => read a words
      | .ok (a, some (option, some value)) => (a.store option value).bind fun a => read a words
      | .ok (a, some (option, none)) =>
        match words with
        | [] => .error .usage
        | value :: words =>
          match Word.ofString value with
          | .plain value => (a.store option value).bind fun a => read a words
          | _ => .error .usage

/-- The arguments of a command. There must be an input. -/
def ofWords (words : List String) : Except Refusal Arguments :=
  (read {} words).bind fun a => if a.inputs.isEmpty then .error .usage else .ok a

def searchPath (a : Arguments) : List String :=
  if a.includes.isEmpty then ["."] else a.includes

/-- The targets asked for; `rust` if there are none. -/
def wantedTargets (a : Arguments) : List Target :=
  if a.targets.isEmpty then [⟨"rust", ""⟩] else a.targets

end Arguments

end ProtoSchema
