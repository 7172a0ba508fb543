import StochasticSat.Command.Options
import StochasticSat.Command.Similarity
import StochasticSat.Decimal.Reading

/-!
# Arguments

The grammar of the command line.  The arguments are read from left to right (`scan`).  An argument
that begins with two dashes names an option in full, one that begins with a single dash a row of
one-letter options; a value follows after `=`, in the same argument, or as the next one.  After
`--` all arguments are positional.  A name of a command, where no value is expected, ends the
options of the program, and the rest belongs to the command, which has options of its own
(`Scope`).

A value is looked at when the next option begins or the arguments end, so an unknown option is
noticed before a bad value in front of it.  `parseArguments` gives the `Invocation` or the first
`UsageFault`.
-/

namespace StochasticSat.Command

open Decimal

/-! ### What can be asked for -/

/-- The shells for which a completion script is known. -/
inductive Shell where
  | bash
  | elvish
  | fish
  | powershell
  | zsh
deriving DecidableEq

def Shell.name : Shell → String
  | .bash => "bash"
  | .elvish => "elvish"
  | .fish => "fish"
  | .powershell => "powershell"
  | .zsh => "zsh"

def Shell.all : List Shell := [.bash, .elvish, .fish, .powershell, .zsh]

/-- A command with its own arguments. -/
inductive Task where
  | file (path : Path)
  | text (input : String)
  | completions (shell : Shell)
deriving DecidableEq

/-- What a command line asks for: a path without a command, or a command, and the options in
effect. -/
structure Invocation where
  path : Option Path
  task : Option Task
  options : Options

/-- Why a command line is refused, or answered without further ado. -/
inductive UsageFault where
  | unknownArgument (argument : String)
  | unknownCommand (name : String)
  | invalidValue (argument : String)
  | missingValue (argument : String)
  | unreadableValue (argument : String)
  | unexpectedValue (argument : String)
  | repeatedArgument (argument : String)
  | missingArgument (argument : String)
  | helpAsked
  | versionAsked
deriving DecidableEq

/-- What is wrong with a command line, in words. -/
def UsageFault.message : UsageFault → String
  | .unknownArgument argument => "unexpected argument " ++ argument
  | .unknownCommand name => "unknown command " ++ name
  | .invalidValue argument => "invalid value for " ++ argument
  | .missingValue argument => "a value is required for " ++ argument
  | .unreadableValue argument => "the value for " ++ argument ++ " is not a number"
  | .unexpectedValue argument => "no value is expected for " ++ argument
  | .repeatedArgument argument => argument ++ " is given more than once"
  | .missingArgument argument => argument ++ " is required"
  | .helpAsked => "help"
  | .versionAsked => "version"

/-! ### Options and their names -/

/-- Everything that an argument can set. -/
inductive Slot where
  | debug
  | verify
  | stats
  | printSolution
  | strategy
  | noise
  | maxFlips
  | timeLimit
  | restart
  | restartInterval
  | seed
  | threads
  | output
  | dialect
  | path
  | input
  | shell
  | help
  | version
deriving DecidableEq

def Slot.name : Slot → String
  | .debug => "debug"
  | .verify => "verify"
  | .stats => "stats"
  | .printSolution => "print-solution"
  | .strategy => "strategy"
  | .noise => "noise"
  | .maxFlips => "max-flips"
  | .timeLimit => "time-limit"
  | .restart => "restart"
  | .restartInterval => "restart-interval"
  | .seed => "seed"
  | .threads => "threads"
  | .output => "output"
  | .dialect => "dialect"
  | .path => "path"
  | .input => "input"
  | .shell => "shell"
  | .help => "help"
  | .version => "version"

def Slot.letter? : Slot → Option Char
  | .debug => some 'd'
  | .verify => some 'v'
  | .stats => some 's'
  | .printSolution => some 'p'
  | .output => some 'o'
  | .input => some 'i'
  | .help => some 'h'
  | .version => some 'V'
  | _ => none

/-- Whether a slot is set by its name alone. -/
def Slot.isFlag : Slot → Bool
  | .debug | .verify | .stats | .printSolution | .help | .version => true
  | _ => false

/-- Whose arguments are being read. -/
inductive Scope where
  | program
  | file
  | text
  | completions
deriving DecidableEq

namespace Scope

/-- The options of a search. -/
def searchSlots : List Slot :=
  [.debug, .verify, .stats, .printSolution, .strategy, .noise, .maxFlips, .timeLimit, .restart,
    .restartInterval, .seed, .threads, .output, .dialect]

/-- The options of a scope. -/
def slots : Scope → List Slot
  | program => searchSlots ++ [.help, .version]
  | file => .path :: searchSlots ++ [.help]
  | text => .input :: searchSlots ++ [.help]
  | completions => [.help]

/-- What the one positional argument of a scope sets. -/
def positional? : Scope → Option Slot
  | program => some .path
  | completions => some .shell
  | _ => none

/-- What the arguments of a scope have to set. -/
def required? : Scope → Option Slot
  | program => none
  | file => some .path
  | text => some .input
  | completions => some .shell

/-- The commands of a scope by their names. -/
def commands : Scope → List (String × Scope)
  | program => [("file", file), ("text", text), ("completions", completions)]
  | _ => []

/-- The name of the command that explains the others. -/
def helpCommand : String := "help"

def named? (s : Scope) (name : String) : Option Slot := s.slots.find? (·.name == name)

/-- The option of a scope with the given letter. -/
def lettered? (s : Scope) (c : Char) : Option Slot := s.slots.find? (·.letter? == some c)

end Scope

/-! ### Values -/

/-- What the arguments have set so far. -/
structure Draft where
  given : List Slot
  options : Options
  path : Option Path
  input : Option String
  shell : Option Shell

namespace Draft

def empty : Draft := ⟨[], .default, none, none, none⟩

/-- The value of a name among some values. -/
def choice {α : Type} (argument : String) (name : α → String) (all : List α) (value : String) :
    Except UsageFault α :=
  match all.find? (name · == value) with
  | some x => .ok x
  | none => .error (.invalidValue argument)

/-- A value that was read, if it could be. -/
def readable {α : Type} (argument : String) : Option α → Except UsageFault α
  | some x => .ok x
  | none => .error (.unreadableValue argument)

/-- A path, which must not be empty. -/
def nonempty (argument value : String) : Except UsageFault Path :=
  if value.isEmpty then .error (.invalidValue argument) else .ok value

/-- The name of a strategy as a value. -/
def strategyName : Strategy → String
  | .gsat => "gsat"
  | .walksat => "walksat"

/-- The name of a restart policy as a value. -/
def policyName : RestartPolicy → String
  | .never => "never"
  | .fixed => "fixed"
  | .luby => "luby"

def write (d : Draft) (slot : Slot) (value : String) : Except UsageFault Draft :=
  let set (o : Options) : Draft := { d with options := o }
  match slot with
  | .debug => return set { d.options with debug := true }
  | .verify => return set { d.options with verify := true }
  | .stats => return set { d.options with stats := true }
  | .printSolution => return set { d.options with printSolution := true }
  | .strategy => do
    let x ← choice slot.name strategyName [.gsat, .walksat] value
    return set { d.options with strategy := x }
  | .noise => do
    let x ← readable slot.name (readFloat? value)
    return set { d.options with noise := x }
  | .maxFlips => do
    let x ← readable slot.name (readWord? value)
    return set { d.options with maxFlips := x }
  | .timeLimit => do
    let x ← readable slot.name (readFloat? value)
    return set { d.options with timeLimit := some x }
  | .restart => do
    let x ← choice slot.name policyName [.never, .fixed, .luby] value
    return set { d.options with policy := x }
  | .restartInterval => do
    let x ← readable slot.name (readWord? value)
    return set { d.options with interval := x }
  | .seed => do
    let x ← readable slot.name (readWord? value)
    return set { d.options with seed := some (UInt64.ofNat x) }
  | .threads => do
    let x ← readable slot.name (readWord? value)
    return set { d.options with threads := x }
  | .output => do
    let x ← nonempty slot.name value
    return set { d.options with output := some x }
  | .dialect => do
    let x ← choice slot.name Dialect.name [.plain, .dimacs] value
    return set { d.options with dialect := some x }
  | .path => do
    let x ← nonempty slot.name value
    return { d with path := some x }
  | .input => return { d with input := some value }
  | .shell => do
    let x ← choice slot.name Shell.name Shell.all value
    return { d with shell := some x }
  | .help => throw .helpAsked
  | .version => throw .versionAsked

/-- The draft after an argument has set a slot; no slot is set twice. -/
def assign (d : Draft) (slot : Slot) (value : String) : Except UsageFault Draft :=
  if slot ∈ d.given then .error (.repeatedArgument slot.name)
  else write { d with given := slot :: d.given } slot value

end Draft

/-! ### Reading arguments -/

/-- Where the reading of arguments stands. -/
structure Scan where
  draft : Draft
  /-- A slot whose value has not been looked at, and the value if it has been seen. -/
  pending : Option (Slot × Option String)
  /-- Whether the next argument may be the value of the pending slot. -/
  awaiting : Bool
  /-- Whether the positional argument has been seen. -/
  filled : Bool
  /-- Whether all arguments from here on are positional. -/
  trailing : Bool

namespace Scan

def start : Scan := ⟨.empty, none, false, false, false⟩

/-- Looks at the pending value. -/
def settle (s : Scan) : Except UsageFault Scan :=
  match s.pending with
  | none => .ok s
  | some (slot, none) => .error (.missingValue slot.name)
  | some (slot, some value) => do
    let draft ← s.draft.assign slot value
    return { s with draft := draft, pending := none }

/-- Sets a slot to a value that came with it. -/
def assign (s : Scan) (slot : Slot) (value : String) : Except UsageFault Scan := do
  let s ← s.settle
  let draft ← s.draft.assign slot value
  return { s with draft := draft, awaiting := false }

/-- Goes on to the value of a slot. -/
def await (s : Scan) (slot : Slot) : Except UsageFault Scan := do
  let s ← s.settle
  return { s with pending := some (slot, none), awaiting := true }

/-- Reads an option by its name, with the value after `=` if there is one. -/
def readLong (scope : Scope) (s : Scan) (name : String) (value? : Option String) :
    Except UsageFault Scan :=
  match scope.named? name with
  | none => .error (.unknownArgument ("--" ++ name))
  | some slot =>
    match slot.isFlag, value? with
    | true, none => s.assign slot ""
    | true, some _ => .error (.unexpectedValue slot.name)
    | false, some value => s.assign slot value
    | false, none => s.await slot

/-- Reads a row of one-letter options; the rest of the row after one that takes a value is its
value, less an `=` in front. -/
def readShort (scope : Scope) (s : Scan) : List Char → Except UsageFault Scan
  | [] => .ok s
  | c :: cs =>
    match scope.lettered? c with
    | none => .error (.unknownArgument (String.ofList ['-', c]))
    | some slot =>
      if slot.isFlag then do
        let s ← s.assign slot ""
        readShort scope s cs
      else
        match cs with
        | [] => s.await slot
        | '=' :: value => s.assign slot (String.ofList value)
        | value => s.assign slot (String.ofList value)

/-- Reads an argument that is the value of the pending slot. -/
def readValue (s : Scan) (value : String) : Scan :=
  { s with pending := s.pending.map fun (slot, _) => (slot, some value), awaiting := false }

/-- Why an argument that no position is left for is refused. -/
def surplus (scope : Scope) (trailing : Bool) (argument : String) : UsageFault :=
  let names := scope.commands.map (·.1) ++ [Scope.helpCommand]
  if scope.commands.isEmpty || (trailing && names.contains argument) then
    .unknownArgument argument
  else if Similarity.resembles argument names then .unknownCommand argument
  else .unknownArgument argument

/-- Reads a positional argument. -/
def readPositional (scope : Scope) (s : Scan) (value : String) : Except UsageFault Scan :=
  match scope.positional? with
  | some slot =>
    if s.filled then .error (surplus scope s.trailing value)
    else do
      let s ← s.settle
      return { s with pending := some (slot, some value), awaiting := false, filled := true }
  | none => .error (surplus scope s.trailing value)

/-- A text before and after its first `=`. -/
def splitEquals (cs : List Char) : String × Option String :=
  let name := cs.takeWhile (· != '=')
  match cs.drop name.length with
  | [] => (String.ofList name, none)
  | _ :: value => (String.ofList name, some (String.ofList value))

/-- Reads one argument that is not the name of a command. -/
def read (scope : Scope) (s : Scan) (argument : String) : Except UsageFault Scan :=
  if s.trailing then s.readPositional scope argument
  else
    match argument.toList with
    | ['-', '-'] => .ok { s with trailing := true }
    | '-' :: '-' :: cs =>
      let (name, value?) := splitEquals cs
      s.readLong scope name value?
    | '-' :: c :: cs => s.readShort scope (c :: cs)
    | _ => if s.awaiting then .ok (s.readValue argument) else s.readPositional scope argument

/-- Whether the next argument may be the name of a command. -/
def mayName (s : Scan) : Bool := !s.trailing && !s.awaiting

end Scan

/-- The answer to the command that explains the others, with its own arguments. -/
def explain : List String → UsageFault
  | [] => .helpAsked
  | [name] =>
    if name == Scope.helpCommand || (Scope.program.commands.lookup name).isSome then .helpAsked
    else .unknownCommand name
  | name :: next :: _ =>
    if name == Scope.helpCommand || (Scope.program.commands.lookup name).isSome then
      .unknownCommand next
    else .unknownCommand name

/-- Reads the arguments of a scope, up to the name of a command. -/
def scan (scope : Scope) (s : Scan) :
    List String → Except UsageFault (Scan × Option (Scope × List String))
  | [] => .ok (s, none)
  | argument :: rest =>
    match if s.mayName then scope.commands.lookup argument else none with
    | some command => .ok (s, some (command, rest))
    | none =>
      if s.mayName && !scope.commands.isEmpty && argument == Scope.helpCommand then
        .error (explain rest)
      else do
        let s ← s.read scope argument
        scan scope s rest

/-- What the arguments of a scope have set, once all that is required is. -/
def close (scope : Scope) (s : Scan) : Except UsageFault Draft := do
  let s ← s.settle
  match scope.required? with
  | some slot => if slot ∈ s.draft.given then return s.draft else throw (.missingArgument slot.name)
  | none => return s.draft

/-- The command that a scope stands for, with what its arguments have set. -/
def taskOf (scope : Scope) (d : Draft) : Option Task :=
  match scope with
  | .program => none
  | .file => d.path.map .file
  | .text => d.input.map .text
  | .completions => d.shell.map .completions

/-- Whether a scope has options for a search. -/
def hasOptions : Scope → Bool
  | .completions => false
  | _ => true

/-- **What a row of arguments asks for.**  Options in front of a command are not passed on to it. -/
def parseArguments (arguments : List String) : Except UsageFault Invocation := do
  let (s, next) ← scan .program .start arguments
  match next with
  | none =>
    let d ← close .program s
    return ⟨d.path, none, d.options⟩
  | some (scope, rest) =>
    let (t, _) ← scan scope .start rest
    let e ← close scope t
    let d ← close .program s
    return ⟨d.path, taskOf scope e, if hasOptions scope then e.options else d.options⟩

end StochasticSat.Command
