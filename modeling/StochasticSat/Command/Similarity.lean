/-!
# Similar words

The similarity of two words, between 0 and 1.  Two characters match if they are equal and their
positions are at most half the longer length, less one, apart; every character matches at most once,
the earliest possible partner first.  The similarity is the mean of three shares: of the characters
of each word that match, and of the matches that are not out of order.

It tells a misspelt name from an unrelated one.
-/

namespace StochasticSat.Similarity

/-- The position of the first partner of `c` among the characters of a word, which are marked as
used or not; only positions from `lo` on and before `hi` count. -/
def partner? (c : Char) (lo hi : Nat) (word : List (Char × Bool)) : Option Nat :=
  (word.zipIdx.find? fun ((d, used), j) => lo ≤ j && j < hi && !used && c == d).map (·.2)

/-- Matches the characters of the first word, from position `i` on, with those of the second: the
characters of the first that match, and the marks of the second. -/
def matchFrom (reach : Nat) (i : Nat) (matched : List Char) (word : List (Char × Bool)) :
    List Char → List Char × List (Char × Bool)
  | [] => (matched.reverse, word)
  | c :: cs =>
    match partner? c (i - reach) (i + reach + 1) word with
    | some j => matchFrom reach (i + 1) (c :: matched) (word.modify j fun (d, _) => (d, true)) cs
    | none => matchFrom reach (i + 1) matched word cs

/-- How far apart matching characters may be. -/
def reach (a b : List Char) : Nat := max a.length b.length / 2 - 1

/-- The similarity of two words. -/
def similarity (a b : List Char) : Float :=
  let (left, marked) := matchFrom (reach a b) 0 [] (b.map (·, false)) a
  let right := (marked.filter (·.2)).map (·.1)
  let outOfOrder := ((left.zip right).filter fun (c, d) => c != d).length / 2
  let share (m n : Nat) : Float := m.toUInt64.toFloat / n.toUInt64.toFloat
  if a.isEmpty && b.isEmpty then 1
  else if left.isEmpty then 0
  else (share left.length a.length + share left.length b.length +
    share (left.length - outOfOrder) left.length) / 3

/-- The similarity above which one word is taken for a misspelling of the other. -/
def threshold : Float := 0.7

def resembles (word : String) (names : List String) : Bool :=
  names.any fun name => decide (threshold < similarity word.toList name.toList)

end StochasticSat.Similarity
