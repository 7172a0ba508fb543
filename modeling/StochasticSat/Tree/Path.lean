/-!
# Paths

A path is a text whose pieces are separated by slashes.  It is kept as it was given, since it is
shown that way; its pieces are what a walk through a tree follows.  An empty piece and the piece `.`
stay where they are, the piece `..` goes up, and a path that begins with a slash starts at the root.
-/

namespace StochasticSat

/-- A path as it was given. -/
abbrev Path := String

namespace Path

/-- The pieces between slashes; `piece` is the reversed beginning of the current piece. -/
def piecesOnto (piece : List Char) : List Char → List (List Char)
  | [] => [piece.reverse]
  | c :: cs => if c = '/' then piece.reverse :: piecesOnto [] cs else piecesOnto (c :: piece) cs

/-- The pieces of a path, the empty ones included. -/
def pieces (p : Path) : List String := (piecesOnto [] p.toList).map String.ofList

/-- Whether a path starts at the root. -/
def isAbsolute (p : Path) : Bool := p.toList.head? == some '/'

/-- A path below another one.  An absolute path stands for itself, and no slash is put after a path
that is empty or ends in one. -/
def join (base p : Path) : Path :=
  if p.isAbsolute then p
  else if base.isEmpty || base.toList.getLast? == some '/' then base ++ p
  else base ++ "/" ++ p

/-- The path of a row of names below a path. -/
def below (base : Path) (names : List String) : Path := names.foldl join base

/-- Whether a piece stays where it is. -/
def staysPut (piece : String) : Bool := piece.isEmpty || piece == "."

/-- Whether the character with the code 0, which ends a text, is in a piece. -/
def hasNul (piece : String) : Bool := piece.toList.any fun c => c.toNat == 0

/-- The number of bytes of a path, given by its pieces. -/
def byteSize (pieces : List String) : Nat :=
  (pieces.map String.utf8ByteSize).foldl (· + ·) 0 + (pieces.length - 1)

/-- A row of pieces without those at its end that satisfy `p`. -/
def dropEnd (p : String → Bool) (pieces : List String) : List String :=
  (pieces.reverse.dropWhile p).reverse

/-- The pieces of the directory that a row of pieces is in: without its last piece that goes
somewhere, and without the pieces around that one that stay where they are. -/
def parent (pieces : List String) : List String :=
  dropEnd staysPut ((dropEnd staysPut pieces).dropLast)

theorem length_dropEnd_le (p : String → Bool) (pieces : List String) :
    (dropEnd p pieces).length ≤ pieces.length := by
  have h := (List.dropWhile_sublist (l := pieces.reverse) p).length_le
  simpa [dropEnd] using h

theorem length_parent_lt {pieces : List String} (h : pieces ≠ []) :
    (parent pieces).length < pieces.length := by
  have h1 := length_dropEnd_le staysPut (dropEnd staysPut pieces).dropLast
  have h2 := length_dropEnd_le staysPut pieces
  have h3 : (dropEnd staysPut pieces).dropLast.length = (dropEnd staysPut pieces).length - 1 := by
    simp
  have h4 : 0 < pieces.length := List.length_pos_iff.mpr h
  unfold parent
  omega

/-- The part of a name after its last dot, provided something comes before that dot. -/
def extension? (name : String) : Option String :=
  let cs := name.toList.reverse
  let after := cs.takeWhile (· != '.')
  match cs.drop after.length with
  | _ :: _ :: _ => some (String.ofList after.reverse)
  | _ => none

end Path

end StochasticSat
