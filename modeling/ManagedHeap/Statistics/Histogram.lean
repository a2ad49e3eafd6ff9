import ManagedHeap.Numeral.Literal

/-!
# Histograms

**Input.**  A sequence of 64-bit values.

**Algorithm.**  A value is counted in the bucket of its bit length, so bucket `b > 0` holds the
values from `2 ^ (b - 1)` to `2 ^ b - 1`.  Beside the buckets a histogram keeps the count, the
wrapping sum, the least and the greatest value.

**Results.**  `atRank` gives an upper bound for the value of a given rank, `percentile` computes the
rank from a fraction in double arithmetic.
-/

namespace ManagedHeap

/-- Values counted by bit length. -/
structure Histogram where
  /-- Number of values of each bit length from 0 to 64. -/
  buckets : List Nat
  count : Nat
  /-- Sum of the values modulo `2 ^ 64`. -/
  sum : Nat
  /-- Least value; the largest word while there is none. -/
  least : Nat
  greatest : Nat
  deriving DecidableEq, Repr

namespace Histogram

def bucketCount : Nat := 65

def empty : Histogram := ⟨List.replicate bucketCount 0, 0, 0, Numeral.wordLimit - 1, 0⟩

def bucketOf (v : Nat) : Nat := if v = 0 then 0 else v.log2 + 1

def upperBound (b : Nat) : Nat := Nat.pow 2 b - 1

def record (h : Histogram) (v : Nat) : Histogram where
  buckets := h.buckets.modify (bucketOf v) (· + 1)
  count := (h.count + 1) % Numeral.wordLimit
  sum := (h.sum + v) % Numeral.wordLimit
  least := min h.least v
  greatest := max h.greatest v

/-- The first bucket, counted from `b`, at which the running total reaches the rank. -/
def bucketAt (rank : Nat) : Nat → Nat → List Nat → Option Nat
  | _, _, [] => none
  | b, total, n :: rest =>
    if rank ≤ total + n then some b else bucketAt rank (b + 1) (total + n) rest

/-- An upper bound for the value of the given rank, at most the greatest value. -/
def atRank (h : Histogram) (rank : Nat) : Nat :=
  match bucketAt rank 0 0 h.buckets with
  | some b => min (upperBound b) h.greatest
  | none => h.greatest

def total (h : Histogram) : Nat := h.buckets.foldr (· + ·) 0

/-- The rank that a fraction of the values reaches, at least one. -/
def rankOf (total : Nat) (p : Numeral.Value) : Nat :=
  max 1 (((Numeral.Format.double.ofNat total).mul .double p).ceilBelow Numeral.wordLimit)

/-- An upper bound for the given fraction of the values. -/
def percentile (h : Histogram) (p : Numeral.Value) : Nat :=
  if h.total = 0 then 0 else h.atRank (rankOf h.total p)

def p50 (h : Histogram) : Nat := h.percentile (Numeral.Format.double.round false 1 2)

/-- The bound of all but one in a hundred values. -/
def p99 (h : Histogram) : Nat := h.percentile (Numeral.Format.double.round false 99 100)

def mean (h : Histogram) : Nat := if h.count = 0 then 0 else h.sum / h.count

/-- Least value; zero while the least is the largest word. -/
def minimum (h : Histogram) : Nat := if h.least = Numeral.wordLimit - 1 then 0 else h.least

def maximum (h : Histogram) : Nat := h.greatest

end Histogram

end ManagedHeap
