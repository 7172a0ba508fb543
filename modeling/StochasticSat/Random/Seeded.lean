import StochasticSat.Random.Stream

/-!
# The seeded stream

A multiplicative generator on one 64-bit word: the word is advanced by an odd constant, and a draw
is the exclusive or of the two halves of the 128-bit product of the word with its masked self.
Bounded draws multiply a fresh word by the bound and keep the high half; a low half below
`(2 ^ 64 - n) % n` would favour some values and is drawn again.

Since the constant is odd, the word runs through all of its `2 ^ 64` values.  A draw that is refused
that many times in a row is refused for ever, so `cycle` attempts are as good as unboundedly many.
-/

namespace StochasticSat

/-- A pseudo-random stream, given by its word. -/
structure Seeded where
  word : UInt64
deriving DecidableEq, Inhabited

namespace Seeded

/-- The odd constant by which the word advances. -/
def increment : UInt64 := 0x2d358dccaa6c78a5

/-- The mask of the second factor. -/
def mask : UInt64 := 0x8bb84b93962eacc9

/-- The number of draws after which the word comes round. -/
def cycle : Nat := Nat.pow 2 64

/-- A word of 64 bits. -/
def next64 (s : Seeded) : UInt64 × Seeded :=
  let word := s.word + increment
  let product := word.toNat * (word ^^^ mask).toNat
  (UInt64.ofNat product ^^^ UInt64.ofNat (product >>> 64), ⟨word⟩)

/-- A word of 32 bits, the low half of a word of 64. -/
def next32 (s : Seeded) : UInt32 × Seeded :=
  let (x, s) := s.next64
  (x.toUInt32, s)

/-- A fair coin: whether the lowest bit is clear. -/
def coin (s : Seeded) : Bool × Seeded :=
  let (x, s) := s.next32
  (x &&& 1 == 0, s)

/-- The spacing of the draws from the unit interval, two to the power -63. -/
def unitSpacing : Float := Float.ofBits 0x3c00000000000000

/-- A draw from the half-open unit interval; one that rounds to its upper end is drawn again. -/
def unitWithin : Nat → Seeded → Float × Seeded
  | 0, s => (0, s)
  | attempts + 1, s =>
    let (x, s) := s.next64
    let u := (x >>> 1).toFloat * unitSpacing
    if u == 1 then unitWithin attempts s else (u, s)

/-- A draw below `n` by multiplying words below `2 ^ bits`, with a bounded number of attempts. -/
def belowWithin (bits : Nat) (draw : Seeded → Nat × Seeded) (n : Nat) (h : 0 < n) :
    Nat → Seeded → Fin n × Seeded
  | 0, s => (⟨0, h⟩, s)
  | attempts + 1, s =>
    let (x, s) := draw s
    let product := x % Nat.pow 2 bits * n
    if product % Nat.pow 2 bits < (Nat.pow 2 bits - n) % n then belowWithin bits draw n h attempts s
    else (⟨product / Nat.pow 2 bits, Nat.div_lt_of_lt_mul
      (Nat.mul_lt_mul_of_pos_right (Nat.mod_lt _ (Nat.two_pow_pos bits)) h)⟩, s)

/-- A draw below `n` from words of 64 bits. -/
def below (n : Nat) (h : 0 < n) (s : Seeded) : Fin n × Seeded :=
  belowWithin 64 (fun s => let (x, s) := s.next64; (x.toNat, s)) n h cycle s

/-- A draw below `n` from words of 32 bits. -/
def belowNarrow (n : Nat) (h : 0 < n) (s : Seeded) : Fin n × Seeded :=
  belowWithin 32 (fun s => let (x, s) := s.next32; (x.toNat, s)) n h cycle s

/-- A stream whose word is drawn from this one. -/
def fork (s : Seeded) : Seeded × Seeded :=
  let (x, s) := s.next64
  (⟨x⟩, s)

instance : RandomStream Seeded where
  coin := coin
  unit := unitWithin cycle
  below := below
  belowNarrow := belowNarrow
  fork := fork

end Seeded

end StochasticSat
