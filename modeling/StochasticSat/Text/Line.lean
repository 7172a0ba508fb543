/-!
# Lines and tokens

A text is read line by line, and a line token by token.  Lines end at line feeds; one carriage
return right before the line feed belongs to the line end.  A last line without a line feed counts
if it is not empty.  Tokens are the maximal rows of characters that are not blank, where the blank
characters are those with the Unicode property of white space.

A `Source` is a row of lines some of which may not be text, because their bytes are not UTF-8.
-/

namespace StochasticSat.Text

/-! ### Lines -/

section Lines

variable {α : Type} [DecidableEq α] (feed ret : α)

/-- A reversed line without one carriage return at its end. -/
def dropReturn : List α → List α
  | c :: line => if c = ret then line else c :: line
  | [] => []

/-- The lines of a row of symbols behind the lines `done`; `line` is the reversed beginning of the
current line. -/
def linesOnto (done : Array (List α)) (line : List α) : List α → Array (List α)
  | [] => if line.isEmpty then done else done.push line.reverse
  | c :: cs =>
    if c = feed then linesOnto (done.push (dropReturn ret line).reverse) [] cs
    else linesOnto done (c :: line) cs

end Lines

def lines (cs : List Char) : List (List Char) := (linesOnto '\n' '\r' #[] [] cs).toList

/-- The lines of a row of bytes. -/
def byteLines (bs : List UInt8) : List (List UInt8) := (linesOnto 10 13 #[] [] bs).toList

/-! ### Tokens -/

/-- The ranges of blank characters. -/
def blankRanges : List (Nat × Nat) :=
  [(0x9, 0xd), (0x20, 0x20), (0x85, 0x85), (0xa0, 0xa0), (0x1680, 0x1680), (0x2000, 0x200a),
    (0x2028, 0x2029), (0x202f, 0x202f), (0x205f, 0x205f), (0x3000, 0x3000)]

/-- Whether a character is blank. -/
def isBlank (c : Char) : Bool := blankRanges.any fun (lo, hi) => lo ≤ c.toNat && c.toNat ≤ hi

/-- The tokens `done` and a reversed token, unless it is empty. -/
def pushToken (done : Array (List Char)) (token : List Char) : Array (List Char) :=
  if token.isEmpty then done else done.push token.reverse

/-- The tokens of a line behind the tokens `done`; `token` is the reversed beginning of the current
token. -/
def tokensOnto (done : Array (List Char)) (token : List Char) : List Char → Array (List Char)
  | [] => pushToken done token
  | c :: cs =>
    if isBlank c then tokensOnto (pushToken done token) [] cs
    else tokensOnto done (c :: token) cs

def tokens (line : List Char) : List (List Char) := (tokensOnto #[] [] line).toList

/-! ### Sources -/

/-- A row of lines; a line whose bytes are no text is missing. -/
abbrev Source := List (Option (List Char))

def Source.ofText (text : String) : Source := (lines text.toList).map some

/-- The lines of a row of bytes; if all of it is text, these are the lines of that text. -/
def Source.ofBytes (bytes : ByteArray) : Source :=
  match String.fromUTF8? bytes with
  | some text => .ofText text
  | none => (byteLines bytes.toList).map fun line =>
      (String.fromUTF8? ⟨line.toArray⟩).map (·.toList)

end StochasticSat.Text
