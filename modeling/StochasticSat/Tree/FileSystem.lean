import StochasticSat.Error
import StochasticSat.Tree.Path

/-!
# File systems

A file system is a tree of files, directories and symbolic links, together with the directory in
which relative paths start.  A walk (`FileSystem.walk`) follows the pieces of a path from there.  It
ends at a node or at a place in a directory where a node may be created (`Spot`), or it fails: a
piece is not there or too long for a name, a piece has to be looked up in something that is no
directory, or more symbolic links are met than a walk may follow.  What a walk does at its end
depends on what it is for (`Goal`).

On top of it stand the operations a program needs: `isDirectory`, `contentAt`, `writeFile`,
`makeDirectory` and `makeDirectories`.
-/

namespace StochasticSat

/-! ### Trees -/

/-- A node of a file system; the names in a directory are distinct and contain no slash. -/
inductive Node where
  | file (content : ByteArray)
  | directory (entries : List (String × Node))
  | link (target : Path)
deriving Inhabited

namespace Node

/-- The entries of a directory with `n` under `name`. -/
def setEntry (entries : List (String × Node)) (name : String) (n : Node) : List (String × Node) :=
  match entries with
  | [] => [(name, n)]
  | (x, m) :: rest => if x = name then (name, n) :: rest else (x, m) :: setEntry rest name n

/-- The entry of a directory. -/
def child? (name : String) : Node → Option Node
  | directory entries => entries.lookup name
  | _ => none

/-- The node at a location, a row of names from this node down. -/
def at? : List String → Node → Option Node
  | [], n => some n
  | name :: names, n => (n.child? name).bind (at? names)

/-- The tree with `n` at a location; directories that are missing on the way are made. -/
def setAt (n : Node) : List String → Node → Node
  | [], _ => n
  | name :: names, directory entries =>
    directory (setEntry entries name (setAt n names ((entries.lookup name).getD (directory []))))
  | name :: names, _ => directory [(name, setAt n names (directory []))]

mutual

/-- The regular files of a tree with their contents, in the order of the entries. -/
def contents : Node → List (List String × ByteArray)
  | file content => [([], content)]
  | link _ => []
  | directory entries => contentsOfEntries entries

/-- The regular files below the entries of a directory. -/
def contentsOfEntries : List (String × Node) → List (List String × ByteArray)
  | [] => []
  | (name, n) :: rest =>
    (n.contents.map fun (names, content) => (name :: names, content)) ++ contentsOfEntries rest

end

end Node

/-! ### Walks -/

/-- A tree and the location at which relative paths start. -/
structure FileSystem where
  root : Node
  home : List String

/-- The end of a walk. -/
inductive Spot where
  | present (location : List String) (node : Node)
  /-- There is no `name` in the directory. -/
  | absent (directory : List String) (name : String)

/-- What a walk is for. -/
inductive Goal where
  /-- To use what is there. -/
  | use
  /-- To write to a file, which need not be there.  A name before a slash is not one of a file. -/
  | write
  /-- To make a directory, where nothing may be, not even a link.  Slashes behind its name do not
  matter. -/
  | make
deriving DecidableEq

namespace FileSystem

/-- The number of symbolic links that a walk may follow. -/
def maxLinks : Nat := 40

def maxNameBytes : Nat := 255

/-- The number of bytes that a path may have, with the byte that marks its end. -/
def maxPathBytes : Nat := 4096

/-- **The walk** along the pieces of a path from the location `here`, with a number of links left to
follow.  When a file is to be written, a last name with a slash behind it is refused before it is
looked up, also where it is a link that led to it. -/
def walk (fs : FileSystem) (goal : Goal) (links : Nat) (here todo : List String) :
    Except FileFault Spot :=
  match todo, fs.root.at? here with
  | [], some node => .ok (.present here node)
  | [], none => .error .notFound
  | piece :: rest, some (.directory entries) =>
    if Path.staysPut piece then walk fs goal links here rest
    else if piece = ".." then walk fs goal links here.dropLast rest
    else if goal = .write && !rest.isEmpty && rest.all (·.isEmpty) then .error .isADirectory
    else if maxNameBytes < piece.utf8ByteSize then .error .nameTooLong
    else
      match entries.lookup piece with
      | none => if rest.isEmpty then .ok (.absent here piece) else .error .notFound
      | some (.link target) =>
        if goal = .make && rest.isEmpty then .ok (.present (here ++ [piece]) (.link target))
        else
          match links with
          | 0 => .error .tooManyLinks
          | links + 1 =>
            walk fs goal links (if target.isAbsolute then [] else here) (target.pieces ++ rest)
      | some _ => walk fs goal links (here ++ [piece]) rest
  | _ :: _, _ => .error .notADirectory
termination_by (links, todo.length)

/-- What is wrong with the pieces of a path in every file system. -/
def pathFault? (pieces : List String) : Option FileFault :=
  if pieces.any Path.hasNul then some .nulInPath
  else if pieces = [] ∨ pieces = [""] then some .notFound
  else if maxPathBytes < Path.byteSize pieces + 1 then some .nameTooLong
  else none

/-- The location from which the pieces of a path are followed. -/
def start (fs : FileSystem) (pieces : List String) : List String :=
  match pieces with
  | "" :: _ => []
  | _ => fs.home

/-- The end of the walk along the pieces of a path. -/
def resolvePieces (fs : FileSystem) (goal : Goal) (pieces : List String) : Except FileFault Spot :=
  match pathFault? pieces with
  | some e => .error e
  | none =>
    fs.walk goal maxLinks (fs.start pieces)
      (if goal = .make then Path.dropEnd (·.isEmpty) pieces else pieces)

/-- The end of the walk along a path. -/
def resolve (fs : FileSystem) (goal : Goal) (p : Path) : Except FileFault Spot :=
  fs.resolvePieces goal p.pieces

/-- The node at the end of a path. -/
def node (fs : FileSystem) (p : Path) : Except FileFault Node :=
  match fs.resolve .use p with
  | .ok (.present _ n) => .ok n
  | .ok (.absent ..) => .error .notFound
  | .error e => .error e

/-- Whether the pieces of a path lead to a directory. -/
def isDirectoryAt (fs : FileSystem) (pieces : List String) : Bool :=
  match fs.resolvePieces .use pieces with
  | .ok (.present _ (.directory _)) => true
  | _ => false

/-- Whether a path leads to a directory. -/
def isDirectory (fs : FileSystem) (p : Path) : Bool := fs.isDirectoryAt p.pieces

/-! ### Files -/

def contentAt (fs : FileSystem) (p : Path) : Except FileFault ByteArray :=
  match fs.node p with
  | .ok (.file content) => .ok content
  | .ok (.directory _) => .error .isADirectory
  | .ok (.link _) => .error .tooManyLinks
  | .error e => .error e

def setNode (fs : FileSystem) (location : List String) (n : Node) : FileSystem :=
  { fs with root := Node.setAt n location fs.root }

/-- The file system with a file of the given content at a path, which is made if it is not there and
emptied if it is. -/
def writeFile (fs : FileSystem) (p : Path) (content : ByteArray) : Except FileFault FileSystem :=
  match fs.resolve .write p with
  | .ok (.present location (.file _)) => .ok (fs.setNode location (.file content))
  | .ok (.present _ _) => .error .isADirectory
  | .ok (.absent directory name) => .ok (fs.setNode (directory ++ [name]) (.file content))
  | .error e => .error e

/-! ### Directories -/

/-- The file system with a new directory at the end of the given pieces, where nothing may be. -/
def makeDirectory (fs : FileSystem) (pieces : List String) : Except FileFault FileSystem :=
  match fs.resolvePieces .make pieces with
  | .ok (.present ..) => .error .alreadyExists
  | .ok (.absent directory name) => .ok (fs.setNode (directory ++ [name]) (.directory []))
  | .error e => .error e

/-- The file system with a directory at the end of the given pieces, whose parent is there. -/
def makeOrKeep (fs : FileSystem) (pieces : List String) : Except FileFault FileSystem :=
  match fs.makeDirectory pieces with
  | .ok fs => .ok fs
  | .error e => if fs.isDirectoryAt pieces then .ok fs else .error e

/-- The file system with directories all along the given pieces, made where they are missing. -/
def makeDirectoriesAt (fs : FileSystem) (pieces : List String) : Except FileFault FileSystem :=
  match pieces with
  | [] => .ok fs
  | piece :: rest =>
    if (piece :: rest).all Path.staysPut then .ok fs
    else
      match fs.makeDirectory (piece :: rest) with
      | .ok fs => .ok fs
      | .error .notFound =>
        match fs.makeDirectoriesAt (Path.parent (piece :: rest)) with
        | .ok fs => fs.makeOrKeep (piece :: rest)
        | .error e => .error e
      | .error _ => fs.makeOrKeep (piece :: rest)
termination_by pieces.length
decreasing_by exact Path.length_parent_lt (List.cons_ne_nil _ _)

/-- The file system with directories all along a path. -/
def makeDirectories (fs : FileSystem) (p : Path) : Except FileFault FileSystem :=
  fs.makeDirectoriesAt p.pieces

/-- The file system with directories all along the way to a path. -/
def makeParents (fs : FileSystem) (p : Path) : Except FileFault FileSystem :=
  fs.makeDirectoriesAt (Path.parent p.pieces)

end FileSystem

end StochasticSat
