import GraphCodec.Command.Basic

/-!
# Command-line arguments

A command line names a command and gives its options. Options are short or long; several short
ones may be joined, and a value is attached to its option, with or without an equals sign, or
follows as the next argument, which must then not look like an option itself. No option is given
twice. The two switches may stand before the name of the command or after it, and once in each
place.
-/

namespace GraphCodec

namespace Arguments

/-! ### Options -/

/-- An option that has a value. -/
inductive Key where
  | schema
  | input
  | output
  | root
  | variableName
  | expected
  deriving DecidableEq, Repr

/-- An option without a value. -/
inductive Switch where
  | verbose
  | jsonMode
  deriving DecidableEq, Repr

/-- The letter of an option, if it has one. -/
def Key.letter? : Key → Option Char
  | schema => some 's'
  | input => some 'i'
  | output => some 'o'
  | root => some 'r'
  | variableName => none
  | expected => some 'e'

/-- The long name of an option. -/
def Key.name : Key → String
  | schema => "schema"
  | input => "input"
  | output => "output"
  | root => "root"
  | variableName => "var"
  | expected => "expect"

/-- Whether the value of an option is a path, which cannot be empty. -/
def Key.isPath : Key → Bool
  | schema | input | output => true
  | root | variableName | expected => false

/-- The switch with a given letter. -/
def Switch.ofLetter? (c : Char) : Option Switch :=
  if c = 'v' then some verbose else none

/-- The switch with a given long name. -/
def Switch.ofName? (name : String) : Option Switch :=
  if name = "verbose" then some verbose
  else if name = "json-mode" then some jsonMode
  else none

/-- The options that have been read. -/
structure Settings where
  values : List (Key × String)
  switches : List Switch
  deriving DecidableEq, Repr

namespace Settings

/-- No options. -/
def empty : Settings :=
  ⟨[], []⟩

/-- Give a value to an option that does not have one. -/
def set? (s : Settings) (key : Key) (value : String) : Option Settings :=
  if key.isPath && value == "" then none
  else if (s.values.lookup key).isSome then none
  else some { s with values := (key, value) :: s.values }

/-- Turn on a switch that is off. -/
def turnOn? (s : Settings) (switch : Switch) : Option Settings :=
  if switch ∈ s.switches then none else some { s with switches := switch :: s.switches }

/-- The value of an option. -/
def get? (s : Settings) (key : Key) : Option String :=
  s.values.lookup key

end Settings

/-! ### Reading -/

/-- A value without an equals sign in front. -/
def withoutEquals : List Char → List Char
  | '=' :: cs => cs
  | cs => cs

/-- Read joined short options. The last may still want its value. -/
def cluster? (keys : List Key) (s : Settings) : List Char → Option (Settings × Option Key)
  | [] => some (s, none)
  | c :: cs =>
    match Switch.ofLetter? c with
    | some switch => (s.turnOn? switch).bind fun s ↦ cluster? keys s cs
    | none =>
      match keys.find? fun key ↦ key.letter? == some c with
      | none => none
      | some key =>
        if cs.isEmpty then some (s, some key)
        else (s.set? key (String.ofList (withoutEquals cs))).map (·, none)

/-- Read a long option without its hyphens. It may still want its value. -/
def long? (keys : List Key) (s : Settings) (cs : List Char) : Option (Settings × Option Key) :=
  let name := String.ofList (cs.takeWhile (· ≠ '='))
  match Switch.ofName? name, keys.find? fun key ↦ key.name == name, cs.dropWhile (· ≠ '=') with
  | some switch, _, [] => (s.turnOn? switch).map (·, none)
  | none, some key, [] => some (s, some key)
  | none, some key, _ :: value => (s.set? key (String.ofList value)).map (·, none)
  | _, _, _ => none

/-- Whether an argument looks like an option. A single hyphen does not. -/
def looksLikeOption (arg : String) : Bool :=
  match arg.toList with
  | '-' :: _ :: _ => true
  | _ => false

/-- Read options up to the first other argument, and return the arguments from there on. Two
hyphens end the options; nothing may follow them. -/
def options? (keys : List Key) (s : Settings) : List String → Option (Settings × List String)
  | [] => some (s, [])
  | arg :: rest =>
    if arg = "--" then
      if rest.isEmpty then some (s, []) else none
    else if looksLikeOption arg then
      let read :=
        match arg.toList with
        | '-' :: '-' :: cs => long? keys s cs
        | _ :: cs => cluster? keys s cs
        | [] => none
      match read, rest with
      | none, _ => none
      | some (s, none), rest => options? keys s rest
      | some (_, some _), [] => none
      | some (s, some key), value :: rest =>
        if looksLikeOption value then none
        else
          match s.set? key value with
          | some s => options? keys s rest
          | none => none
    else some (s, arg :: rest)

/-! ### Commands -/

/-- The default name of an exported variable. -/
def defaultVariable : String := "s"

/-- The command with a given name: the options that it has, and the command that they make if those
that it needs are there. -/
def command? (name : String) : Option (List Key × (Settings → Option Command)) :=
  match name with
  | "dictionary" => some ([.schema, .root], fun s ↦ do
    return .dictionary (← s.get? .schema) (s.get? .root))
  | "encode" => some ([.schema, .input, .output, .root], fun s ↦ do
    return .encode (← s.get? .schema) (← s.get? .input) (← s.get? .output) (s.get? .root))
  | "decode" => some ([.input], fun s ↦ do
    return .decode (← s.get? .input))
  | "export-mat" => some ([.schema, .input, .output, .root, .variableName], fun s ↦ do
    return .exportMat (← s.get? .schema) (← s.get? .input) (← s.get? .output) (s.get? .root)
      ((s.get? .variableName).getD defaultVariable))
  | "generate" => some ([.schema, .output, .root], fun s ↦ do
    return .generate (← s.get? .schema) (← s.get? .output) (s.get? .root))
  | "digest" => some ([.input, .expected], fun s ↦ do
    return .digest (← s.get? .input) (s.get? .expected))
  | _ => none

/-- The invocation that a command line asks for, if it is well formed. -/
def parse? (args : List String) : Option Invocation := do
  match ← options? [] .empty args with
  | (_, []) => none
  | (before, name :: args) =>
    let (keys, make) ← command? name
    match ← options? keys .empty args with
    | (_, _ :: _) => none
    | (s, []) =>
      let command ← make s
      let isOn (switch : Switch) : Bool := switch ∈ before.switches ∨ switch ∈ s.switches
      return ⟨command, isOn .jsonMode, isOn .verbose⟩

end Arguments

end GraphCodec
