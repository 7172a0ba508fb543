import StochasticSat.Command.Session

/-!
# The program

The program reads its arguments, runs the session they ask for, and exits with a status: 10 if every
instance was satisfied, 0 if some search ended without a model, 1 if something went wrong, and 2 if
the arguments make no sense.  Help, version and completion scripts are printed with status 0.

`Program.run` is all of it as a function of the arguments and a file system.
-/

namespace StochasticSat.Command

open Decimal SessionT

def programName : String := "walksat"

def programVersion : String := "0.1.0"

/-- The end of a program: its status, unless a search has not ended, and what it leaves behind. -/
structure Finish where
  status : Option Nat
  machine : Machine

/-! ### Help and completion -/

/-- An option as it is shown in the help. -/
def optionText (slot : Slot) : String :=
  let letter := match slot.letter? with
    | some c => String.ofList ['-', c] ++ ", "
    | none => "    "
  let value := if slot.isFlag then "" else " <" ++ slot.name.toUpper ++ ">"
  "  " ++ letter ++ "--" ++ slot.name ++ value

/-- The help of the program. -/
def helpText : String :=
  "\n".intercalate
    (["GSAT and WalkSAT local search for CNF formulas", "",
      "Usage: " ++ programName ++ " [OPTIONS] [PATH] [COMMAND]", "",
      "Commands:",
      "  file         Solve a clause file, or every instance file below a directory",
      "  text         Solve clauses provided as text",
      "  completions  Generate shell completion scripts",
      "  help         Print this message", "",
      "Options:"] ++ Scope.program.slots.map optionText)

/-- Everything that can be completed. -/
def completionWords : List String :=
  Scope.program.commands.map (·.1) ++ [Scope.helpCommand] ++
    Scope.program.slots.map ("--" ++ ·.name) ++ ["--input", "--path"]

/-- A script that makes a shell complete the arguments of the program. -/
def completionScript (shell : Shell) : String :=
  let words := " ".intercalate completionWords
  match shell with
  | .bash => "complete -o default -W '" ++ words ++ "' " ++ programName
  | .elvish =>
    "set edit:completion:arg-completer[" ++ programName ++ "] = \x7b|@words| put " ++ words ++
      " \x7d"
  | .fish => "complete -c " ++ programName ++ " -a '" ++ words ++ "'"
  | .powershell =>
    "Register-ArgumentCompleter -Native -CommandName '" ++ programName ++
      "' -ScriptBlock \x7b '" ++ words ++ "' -split ' ' \x7d"
  | .zsh => "#compdef " ++ programName ++ "\n_arguments '*: :(" ++ words ++ ")'"

/-! ### Running -/

variable {m : Type → Type} [Monad m]

def perform (host : Host m) (i : Invocation) : SessionT m Bool :=
  match i.task, i.path with
  | some (.file p), _ => solvePath host i.options p
  | some (.text input), _ => solveText host i.options input
  | some (.completions shell), _ => do
    print (completionScript shell)
    return true
  | none, some p => solvePath host i.options p
  | none, none => throw (.failed (.invalidConfig .noInput))

/-- Whether an invocation asks for a completion script. -/
def asksCompletion (i : Invocation) : Bool :=
  match i.task with
  | some (.completions _) => true
  | _ => false

/-- The status of a session that has ended. -/
def statusOf (i : Invocation) : Except Stop Bool → Option Nat
  | .ok satisfied => some (if satisfied && !asksCompletion i then 10 else 0)
  | .error (.failed _) => some 1
  | .error .unfinished => none

/-- The log of a machine after a session, with the error that ended it, as far as the options let it
through. -/
def closingLog (i : Invocation) (result : Except Stop Bool) (log : Log) : Log :=
  let failure : Log := match result with
    | .error (.failed e) => [⟨.error, e.message⟩]
    | _ => []
  (log ++ failure).upTo i.options.logLevel

/-- The end of the program for an invocation. -/
def runInvocation (host : Host m) (i : Invocation) (files : FileSystem) : m Finish := do
  let (result, machine) ← (perform host i).run.run ⟨files, "", []⟩
  return ⟨statusOf i result, { machine with log := closingLog i result machine.log }⟩

/-- The end of the program for arguments that ask for no session. -/
def answerUsage (fault : UsageFault) (files : FileSystem) : Finish :=
  match fault with
  | .helpAsked => ⟨some 0, ⟨files, helpText ++ "\n", []⟩⟩
  | .versionAsked => ⟨some 0, ⟨files, programName ++ " " ++ programVersion ++ "\n", []⟩⟩
  | _ => ⟨some 2, ⟨files, "", [⟨.error, fault.message⟩]⟩⟩

/-- **The program**, on some arguments and a file system. -/
def Program.run (host : Host m) (arguments : List String) (files : FileSystem) : m Finish :=
  match parseArguments arguments with
  | .ok i => runInvocation host i files
  | .error fault => return answerUsage fault files

end StochasticSat.Command
