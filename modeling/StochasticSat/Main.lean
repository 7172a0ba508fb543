import StochasticSat.Command.Program

/-!
# The command line

`main` loads the part of the file system that its arguments name, runs the program on it with a host
whose clock runs, writes back the files that have changed, and shows what was printed and logged.
-/

namespace StochasticSat.Command

/-! ### Loading files -/

/-- The names on the way to an absolute path. -/
def locationOf (p : Path) : List String := p.pieces.filter (!Path.staysPut ·)

/-- The node at a path; what is neither a file nor a directory nor a link is missing, and so is a
link that leads nowhere. -/
partial def loadNode (p : Path) : IO (Option Node) := do
  let place := System.mkFilePath [p]
  match (← place.symlinkMetadata).type with
  | .file => return some (.file (← IO.FS.readBinFile place))
  | .symlink =>
    if ← place.pathExists then return some (.link (← IO.FS.realPath place).toString)
    else return none
  | .dir =>
    let mut entries := #[]
    for entry in ← place.readDir do
      if let some n ← loadNode entry.path.toString then
        entries := entries.push (entry.fileName, n)
    return some (.directory entries.toList)
  | .other => return none

/-- The file system with a directory at an absolute path. -/
def withDirectory (fs : FileSystem) (p : Path) : FileSystem :=
  match fs.root.at? (locationOf p) with
  | some (.directory _) => fs
  | _ => fs.setNode (locationOf p) (.directory [])

/-- The file system with all that is at the end of a row of pieces from the directory `here`, and
with the directories and links on the way there. -/
partial def loadAlong (fs : FileSystem) (here : Path) (pieces : List String) : IO FileSystem := do
  match pieces with
  | [] =>
    match ← loadNode here with
    | some n => return fs.setNode (locationOf here) n
    | none => return fs
  | piece :: rest =>
    if Path.staysPut piece then loadAlong fs here rest
    else
      let next := Path.join here piece
      if !(← (System.mkFilePath [next]).pathExists) then return fs
      let real := (← IO.FS.realPath (System.mkFilePath [next])).toString
      let fs := if piece == ".." || real == next then fs
        else fs.setNode (locationOf next) (.link real)
      if ← (System.mkFilePath [real]).isDir then loadAlong (withDirectory fs real) real rest
      else loadAlong fs real []

def namedPaths (i : Invocation) : List Path :=
  let input := match i.task, i.path with
    | some (.file p), _ => [p]
    | none, some p => [p]
    | _, _ => []
  input ++ i.options.output.toList

/-- The part of the file system that some arguments name. -/
def loadFiles (arguments : List String) : IO FileSystem := do
  let home := (← IO.FS.realPath (← IO.currentDir)).toString
  let start := withDirectory ⟨.directory [], locationOf home⟩ home
  match parseArguments arguments with
  | .ok i =>
    (namedPaths i).foldlM (fun fs p => loadAlong fs (if p.isAbsolute then "/" else home) p.pieces)
      start
  | .error _ => return start

/-! ### Writing files -/

/-- Writes what is new in a tree at a path. -/
partial def writeChanges (p : Path) (before? : Option Node) (after : Node) : IO Unit := do
  match after, before? with
  | .file content, some (.file old) =>
    if content.data != old.data then IO.FS.writeBinFile (System.mkFilePath [p]) content
  | .file content, _ => IO.FS.writeBinFile (System.mkFilePath [p]) content
  | .link _, _ => pure ()
  | .directory entries, _ =>
    if before?.isNone then IO.FS.createDirAll (System.mkFilePath [p])
    for (name, n) in entries do
      writeChanges (Path.join p name) (before?.bind (Node.child? name)) n

/-! ### The host -/

/-- The time since some moment. -/
def readClock : IO Duration := return .ofNanoseconds (← IO.monoNanosNow)

/-- The sizes of all memory and of the resident memory, in MiB, where the system tells them. -/
def readMemory : IO (Float × Float) := do
  let pages ← try IO.FS.readFile (System.mkFilePath ["/proc/self/statm"]) catch _ => pure ""
  let size (word : String) : Float := (word.toNat?.getD 0).toUInt64.toFloat * 4096 / 1048576
  match pages.splitOn " " with
  | total :: resident :: _ => return (size total, size resident)
  | _ => return (0, 0)

/-- A word that is hard to guess. -/
def readEntropy : IO UInt64 := do
  let bytes ← IO.getRandomBytes 8
  return bytes.toList.foldl (fun x b => x * 256 + b.toUInt64) 0

/-- A contest to its end, by the clock. -/
partial def finishContest {ω : Type} (o : Observer ω) (budget : Budget) (start : Duration)
    (contest : Contest Seeded ω) : IO (Contest Seeded ω) := do
  if contest.isOver then return contest
  let elapsed := Duration.ofNanoseconds ((← readClock).total - start.total)
  finishContest o budget start (contest.pass o budget elapsed)

/-- The host on which time passes. -/
def Host.running : Host IO where
  now := readClock
  memory := readMemory
  race inst config threads level := do
    let o := Observer.logging (some level)
    match Contest.start inst config threads o (config.stream (← readEntropy)) #[] with
    | .error e => return .error e
    | .ok contest =>
      let start ← readClock
      let contest ← finishContest o config.budget start contest
      return .ok (contest.report? (.ofNanoseconds ((← readClock).total - start.total)))

/-- Runs the program on some arguments and shows the result. -/
def runProgram (arguments : List String) : IO UInt32 := do
  let files ← loadFiles arguments
  let finish ← Program.run .running arguments files
  writeChanges "/" (some files.root) finish.machine.files.root
  IO.print finish.machine.printed
  for record in finish.machine.log do
    IO.eprintln ("[" ++ record.level.name ++ "] " ++ record.message)
  return UInt32.ofNat (finish.status.getD 1)

end StochasticSat.Command

def main (arguments : List String) : IO UInt32 :=
  try StochasticSat.Command.runProgram arguments
  catch e => do
    IO.eprintln ("[ERROR] " ++ toString e)
    return 1
