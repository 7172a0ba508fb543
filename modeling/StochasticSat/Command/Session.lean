import StochasticSat.Command.Arguments
import StochasticSat.Command.Table
import StochasticSat.Formula.Model
import StochasticSat.Search.Race
import StochasticSat.Tree.InstanceFiles

/-!
# Sessions

A session solves what a command line asks for: one file, one text, or all instance files below a
directory.  It works on a `Machine`, a file system together with what has been printed and logged,
and it leaves to a `Host` what is not a function of its input: the search itself, which has a clock,
and the measures that are shown in the table of statistics.  `Host.still` is a host on which no time
passes.

A session ends with whether every instance was satisfied, or it stops: something went wrong, or a
search without a limit on flips has not ended (`Stop`).
-/

namespace StochasticSat.Command

open Decimal

/-! ### Machines and hosts -/

/-- A file system, with what has been printed and logged. -/
structure Machine where
  files : FileSystem
  printed : String
  log : Log

/-- Why a session stops early. -/
inductive Stop where
  | failed (error : Error)
  | unfinished

/-- What a session asks of the world. -/
structure Host (m : Type → Type) where
  /-- The time since some moment. -/
  now : m Duration
  /-- Allocated and resident memory, in MiB. -/
  memory : m (Float × Float)
  /-- A search with a number of workers that logs what the given level admits. -/
  race : Instance → Config → Nat → Level → m (Except Error (Option (RaceReport (Array Record))))

/-- The host on which no time passes and no memory is used; `entropy` seeds streams without a
seed. -/
def Host.still (entropy : UInt64) : Host Id where
  now := Duration.zero
  memory := (0, 0)
  race inst config threads level :=
    searchWith inst config threads (.logging (some level)) (fun _ => .zero)
      (config.stream entropy) #[]

variable {m : Type → Type} [Monad m]

/-- A part of a session. -/
abbrev SessionT (m : Type → Type) := ExceptT Stop (StateT Machine m)

namespace SessionT

/-- What the host answers. -/
def ask {α : Type} (x : m α) : SessionT m α := ExceptT.lift (StateT.lift x)

def print (line : String) : SessionT m Unit :=
  modify fun s => { s with printed := s.printed ++ line ++ "\n" }

def note (records : Log) : SessionT m Unit := modify fun s => { s with log := s.log ++ records }

/-- Logs one record. -/
def say (level : Level) (message : String) : SessionT m Unit := note [⟨level, message⟩]

/-- The value, or the end of the session. -/
def orFail {α : Type} (x : Except Error α) : SessionT m α :=
  match x with
  | .ok a => pure a
  | .error e => throw (.failed e)

/-- Changes the file system, or ends the session. -/
def changeFiles (change : FileSystem → Except FileFault FileSystem) : SessionT m Unit := do
  let s ← get
  match change s.files with
  | .ok files => set { s with files := files }
  | .error e => throw (.failed (.file e))

/-- The result, after logging what was logged on the way to it. -/
def logged {α : Type} (x : Logged α) : SessionT m α := do
  note x.log
  return x.result

end SessionT

open SessionT

/-! ### Solving one instance -/

/-- The instance in a file. -/
def loadInstance (dialect? : Option Dialect) (p : Path) :
    SessionT m (Except Error Instance) := do
  let s ← get
  logged (s.files.loadInstance dialect? p)

/-- The size of an instance in words. -/
def sizeText (inst : Instance) : String :=
  "instance: " ++ natText inst.numVars ++ " variables, " ++ natText inst.numClauses ++
    " clauses, " ++ natText inst.numLiterals ++ " literals"

/-- The result of a search in words. -/
def outcomeText : Outcome → String
  | .satisfied _ n => "\nSATISFIABLE (after " ++ natText n ++ " flips)"
  | .exhausted n reason =>
    "\nUNKNOWN (" ++ reason.text ++ " after " ++ natText n ++ " flips)"

def runSearch (host : Host m) (options : Options) (inst : Instance) (config : Config) :
    SessionT m Report := do
  match ← ask (host.race inst config options.threads options.logLevel) with
  | .error e => throw (.failed e)
  | .ok none => throw .unfinished
  | .ok (some r) =>
    note (r.watchers.flatMap Array.toList)
    note r.notes
    return r.report

/-- Checks a model against the instance. -/
def checkModel (inst : Instance) (ls : List SignedLiteral) : SessionT m Bool := do
  let ok ← orFail (inst.verify ls)
  print ("Verified: " ++ if ok then "true" else "false")
  unless ok do say .error "model failed verification"
  return ok

/-- Writes a model to a file. -/
def saveModel (p : Path) (ls : List SignedLiteral) : SessionT m Unit := do
  changeFiles (·.saveSolution p ls)
  say .info ("solution written to " ++ p)

/-- Reports on a model: checks it and writes it to a file, as the options ask.  The answer is
whether it passed. -/
def reportModel (options : Options) (inst : Instance) (output : Option Path)
    (ls : List SignedLiteral) : SessionT m Bool := do
  let ok ← if options.verify then checkModel inst ls else pure true
  match output with
  | some p => saveModel p ls
  | none => pure ()
  return ok

/-- The signed literals of the model of a search, if it has found one. -/
def modelLiterals (inst : Instance) (outcome : Outcome) :
    SessionT m (Option (List SignedLiteral)) :=
  match outcome.model? with
  | some a => return some (← orFail (inst.toLiterals a))
  | none => return none

/-- **Solves an instance and reports the result.**  The answer is whether a model was found and, if
the options ask for that, has passed the check. -/
def solveAndReport (host : Host m) (options : Options) (inst : Instance) (label : Option Path)
    (parseTime : Duration) (output : Option Path) : SessionT m Bool := do
  match label with
  | some p => print ("Solving: " ++ p)
  | none => pure ()
  say .debug (sizeText inst)
  let config ← orFail options.toConfig
  let report ← runSearch host options inst config
  let ls? ← modelLiterals inst report.outcome
  let satisfied ← match ls? with
    | some ls => reportModel options inst output ls
    | none => pure false
  if options.stats then
    let (allocated, resident) ← ask host.memory
    (statsTable parseTime inst config report.stats report.elapsed allocated resident).forM print
  match ls? with
  | some ls => if options.printSolution then print ("Solution: " ++ signedText " " ls)
  | none => pure ()
  print (outcomeText report.outcome)
  return satisfied

/-- A part of a session with the time that it takes. -/
def timed {α : Type} (host : Host m) (x : SessionT m α) : SessionT m (α × Duration) := do
  let before ← ask host.now
  let a ← x
  let after ← ask host.now
  return (a, .ofNanoseconds (after.total - before.total))

def solveFile (host : Host m) (options : Options) (p : Path) : SessionT m Bool := do
  let (inst, parseTime) ← timed host (loadInstance options.dialect p)
  solveAndReport host options (← orFail inst) (some p) parseTime options.output

def solveText (host : Host m) (options : Options) (text : String) : SessionT m Bool := do
  let (inst, parseTime) ← timed host (logged (instanceOfText options.dialect text))
  solveAndReport host options (← orFail inst) none parseTime options.output

/-! ### Solving a directory -/

/-- Where the model of a file goes that is found below a directory by a row of names: to the same
place below `out`, with `.sol` behind its name. -/
def solutionPath (out : Path) (names : List String) : Path :=
  Path.join out ("/".intercalate names ++ ".sol")

/-- How many files of a directory were solved, and how many could not be read. -/
structure Tally where
  solved : Nat
  failed : Nat
deriving DecidableEq

/-- Makes room for the model of a file, if models are to be written. -/
def prepareOutput (out? : Option Path) (names : List String) : SessionT m (Option Path) := do
  match out? with
  | none => return none
  | some out =>
    let p := solutionPath out names
    changeFiles (·.makeParents p)
    return some p

/-- Solves one file of a directory; a file that is no instance is skipped. -/
def solveEntry (host : Host m) (options : Options) (root : Path) (tally : Tally)
    (names : List String) : SessionT m Tally := do
  let p := Path.below root names
  match ← timed host (loadInstance options.dialect p) with
  | (.error e, _) =>
    say .error ("skipping " ++ p ++ ": " ++ e.message)
    return { tally with failed := tally.failed + 1 }
  | (.ok inst, parseTime) =>
    let output ← prepareOutput options.output names
    if ← solveAndReport host options inst (some p) parseTime output then
      return { tally with solved := tally.solved + 1 }
    else return tally

/-- Solves files of a directory one after the other. -/
def solveEntries (host : Host m) (options : Options) (root : Path) :
    Tally → List (List String) → SessionT m Tally
  | tally, [] => return tally
  | tally, names :: rest => do
    let tally ← solveEntry host options root tally names
    solveEntries host options root tally rest

/-- The end of the run of a directory with a number of files. -/
def conclude (total : Nat) (tally : Tally) : SessionT m Bool := do
  print ("\nSolved " ++ natText tally.solved ++ " of " ++ natText total ++ " instances (" ++
    natText tally.failed ++ " unreadable)")
  if 0 < tally.failed then throw (.failed (.unreadableInstances tally.failed total))
  return tally.solved = total

/-- **Solves every instance file below a directory.**  The answer is whether all were solved. -/
def solveDirectory (host : Host m) (options : Options) (root : Path) : SessionT m Bool := do
  let s ← get
  let files ← orFail (s.files.findInstances root)
  say .info ("found " ++ natText files.length ++ " instance files under " ++ root)
  match options.output with
  | some out => changeFiles (·.makeDirectories out)
  | none => pure ()
  let tally ← solveEntries host options root ⟨0, 0⟩ files
  conclude files.length tally

/-- Solves a file, or every instance file below a directory. -/
def solvePath (host : Host m) (options : Options) (p : Path) : SessionT m Bool := do
  let s ← get
  if s.files.isDirectory p then solveDirectory host options p else solveFile host options p

end StochasticSat.Command
