/-!
# Random streams

The search never looks inside its source of randomness: it asks a `RandomStream` for coins, for
draws from the unit interval, for bounded draws and for independent streams, and goes on with the
stream that comes back.  A bounded draw has the type of its range, so what is stated for every
stream is stated for every possible sequence of answers.

`choose` draws one element of a list, and `drawCoins` a row of independent coins.
-/

namespace StochasticSat

/-- A source of random draws; every draw returns the stream to go on with. -/
class RandomStream (σ : Type) where
  /-- A fair coin. -/
  coin : σ → Bool × σ
  /-- A draw from the half-open unit interval. -/
  unit : σ → Float × σ
  /-- A draw below `n`. -/
  below (n : Nat) : 0 < n → σ → Fin n × σ
  /-- A draw below `n` from a narrow word, for the small ranges of an instance generator. -/
  belowNarrow (n : Nat) : 0 < n → σ → Fin n × σ
  /-- An independent stream, and the rest of this one. -/
  fork : σ → σ × σ

namespace RandomStream

variable {σ : Type} [RandomStream σ]

/-- One element of a list, drawn uniformly; nothing is drawn from the empty list. -/
def choose {α : Type} (xs : List α) (s : σ) : Option α × σ :=
  if h : 0 < xs.length then
    let (d, s) := below xs.length h s
    (some xs[d], s)
  else (none, s)

/-- The coins of `drawCoins`, behind those drawn already. -/
def drawCoinsOnto (coins : Array Bool) : Nat → σ → Array Bool × σ
  | 0, s => (coins, s)
  | n + 1, s =>
    let (b, s) := coin s
    drawCoinsOnto (coins.push b) n s

/-- A row of `n` independent coins. -/
def drawCoins (n : Nat) (s : σ) : Array Bool × σ := drawCoinsOnto #[] n s

/-- A row of `n` independent streams, and the rest of this one. -/
def forks : Nat → σ → List σ × σ
  | 0, s => ([], s)
  | n + 1, s =>
    let (t, s) := fork s
    let (ts, s) := forks n s
    (t :: ts, s)

end RandomStream

end StochasticSat
