import StochasticSat.Text.Solution
import StochasticSat.Tree.FileSystem

/-!
# Instance files

The instance files of a directory are the regular files below it whose names have the extension
`cnf` or `txt`.  `Node.filesBelow` visits a tree depth first, the entries of every directory in the
order of their names; symbolic links are not followed below the start.  `FileSystem.findInstances`
gives every file by the row of names that leads to it.

`FileSystem.loadInstance` reads one of them; solutions are kept in files of their own
(`FileSystem.saveSolution`, `FileSystem.loadSolution`).
-/

namespace StochasticSat

namespace Node

/-- Entries with the names of a directory, in the order of their names. -/
def sortByName {α : Type} (entries : List (String × α)) : List (String × α) :=
  entries.mergeSort fun a b => decide (a.1 ≤ b.1)

mutual

/-- The regular files of a tree by the rows of names that lead to them, in the order of a walk that
is depth first and by name. -/
def filesBelow : Node → List (List String)
  | file _ => [[]]
  | link _ => []
  | directory entries =>
    (sortByName (filesOfEntries entries)).flatMap fun (name, files) => files.map (name :: ·)

/-- The regular files below every entry of a directory. -/
def filesOfEntries : List (String × Node) → List (String × List (List String))
  | [] => []
  | (name, n) :: rest => (name, n.filesBelow) :: filesOfEntries rest

end

/-- Whether a name is that of an instance file. -/
def isInstanceName (name : String) : Bool :=
  match Path.extension? name with
  | some "cnf" | some "txt" => true
  | _ => false

/-- The instance files of a tree by the rows of names that lead to them. -/
def instanceFiles (n : Node) : List (List String) :=
  n.filesBelow.filter fun names => names.getLast?.any isInstanceName

end Node

namespace FileSystem

/-- **The instance files below a directory**, by the rows of names that lead to them. -/
def findInstances (fs : FileSystem) (p : Path) : Except Error (List (List String)) :=
  match fs.node p with
  | .ok n@(.directory _) => .ok n.instanceFiles
  | _ => .error (.file (.noInstanceDirectory p))

/-- The instance in a file, in the given dialect or in the one that is detected. -/
def loadInstance (fs : FileSystem) (dialect? : Option Dialect) (p : Path) :
    Logged (Except Error Instance) :=
  match fs.contentAt p with
  | .ok content => instanceOfBytes dialect? content
  | .error e => ⟨.error (.file e), []⟩

def loadSolution (fs : FileSystem) (p : Path) : Except Error (List SignedLiteral) :=
  match fs.contentAt p with
  | .ok content => readSolution (.ofBytes content)
  | .error e => .error (.file e)

def saveSolution (fs : FileSystem) (p : Path) (ls : List SignedLiteral) :
    Except FileFault FileSystem :=
  fs.writeFile p (solutionText ls).toUTF8

end FileSystem

end StochasticSat
