import ManagedHeap.Numeral.Binary

/-!
# Decimal texts of floating-point values

**Input.**  A finite value `m * 2 ^ e` of a format.

**Algorithm.**  The reals that round to the value form an interval, ends included for an even
mantissa.  Decimal grids are tried from coarse to fine; the first grid with a point inside the
interval has the fewest digits, and of its two points around the value the nearer one is taken.

**Results.**  `Format.shortest` gives the digits, `Layout` says how they are written, `fixed` writes
a given number of places with a half going to the even neighbour.
-/

namespace ManagedHeap
namespace Numeral

/-- The decimal number `digits * 10 ^ exponent`. -/
structure Decimal where
  digits : Nat
  exponent : Int
  deriving DecidableEq, Repr

section Shortest

/-- The integers `(4 m - below, 4 m + 2)`, in quarters of a unit, around `4 m`. -/
def Format.gapBelow (f : Format) (m : Nat) (e : Int) : Nat :=
  if m = Nat.pow 2 (f.precision - 1) ∧ f.least < e then 1 else 2

/-- The point of the grid `10 ^ k` nearest to `m * 2 ^ e`, if one rounds to that value. -/
def Format.gridPoint? (f : Format) (m : Nat) (e : Int) (k : Int) : Option Nat :=
  let grid := Nat.pow 10 k.toNat * Nat.pow 2 (2 - e).toNat
  let unit := Nat.pow 2 (e - 2).toNat * Nat.pow 10 (-k).toNat
  let value := 4 * m * unit
  let lo := (4 * m - f.gapBelow m e) * unit
  let hi := (4 * m + 2) * unit
  let inside (d : Nat) : Bool :=
    if m % 2 = 0 then lo ≤ d * grid && d * grid ≤ hi else lo < d * grid && d * grid < hi
  let down := value / grid
  let up := down + 1
  match inside down, inside up with
  | false, false => none
  | true, false => some down
  | false, true => some up
  | true, true =>
      let below := value - down * grid
      let above := up * grid - value
      if below < above then some down
      else if above < below then some up
      else some (if down % 2 = 0 then down else up)

/-- Grids from `10 ^ k` downwards, at most `fuel` of them. -/
def Format.searchGrid (f : Format) (m : Nat) (e : Int) : Nat → Int → Decimal
  | 0, k => ⟨0, k⟩
  | fuel + 1, k =>
      match f.gridPoint? m e k with
      | some d => ⟨d, k⟩
      | none => f.searchGrid m e fuel (k - 1)

/-- The fewest digits that round back to `m * 2 ^ e`, for positive `m`. -/
def Format.shortest (f : Format) (m : Nat) (e : Int) : Decimal :=
  let top := (floorLog2 (Value.ratio m e).1 (Value.ratio m e).2 * 1233) / 4096 + 2
  f.searchGrid m e 24 top

end Shortest

section Layout

/-- How a shortest decimal is written. -/
structure Layout where
  /-- Least scientific exponent that is written in positional form. -/
  plainFrom : Int
  /-- First scientific exponent that is no longer written in positional form. -/
  plainBelow : Int
  /-- Text of values that are not finite. -/
  missing : String

/-- Numbers in documents: positional from `1e-5` up to `1e16`, otherwise with a signed exponent. -/
def Layout.document : Layout := ⟨-5, 16, "null"⟩

def zeros (n : Nat) : String := String.ofList (List.replicate n '0')

/-- Positional form with at least one place after the point. -/
def Decimal.positional (d : Decimal) : String :=
  let ds := toString d.digits
  let n : Int := ds.length
  if 0 ≤ d.exponent then ds ++ zeros d.exponent.toNat ++ ".0"
  else if 0 < n + d.exponent then
    let cut := (n + d.exponent).toNat
    String.ofList (ds.toList.take cut) ++ "." ++ String.ofList (ds.toList.drop cut)
  else "0." ++ zeros (-(n + d.exponent)).toNat ++ ds

/-- One digit, the remaining digits after a point, and a signed exponent. -/
def Decimal.scientific (d : Decimal) : String :=
  let ds := (toString d.digits).toList
  let e : Int := ds.length - 1 + d.exponent
  let fraction := match ds.drop 1 with
    | [] => ""
    | rest => "." ++ String.ofList rest
  String.ofList (ds.take 1) ++ fraction ++ "e" ++ (if 0 ≤ e then "+" else "-") ++ toString e.natAbs

/-- Text of a value in the shortest digits of its format. -/
def Layout.write (l : Layout) (f : Format) : Value → String
  | .nan _ => l.missing
  | .infinite _ => l.missing
  | .finite n m e =>
      let sign := if n then "-" else ""
      if m = 0 then sign ++ "0.0"
      else
        let d := f.shortest m e
        let s : Int := ((toString d.digits).length : Int) - 1 + d.exponent
        sign ++ (if l.plainFrom ≤ s && s < l.plainBelow then d.positional else d.scientific)

/-- Text with exactly `places` digits after the point, a half going to the even neighbour. -/
def fixed (places : Nat) : Value → String
  | .nan _ => "NaN"
  | .infinite n => if n then "-inf" else "inf"
  | .finite n m e =>
      let r := Value.ratio m e
      let scaled := roundDiv (r.1 * Nat.pow 10 places) r.2
      let ds := toString scaled
      let padded := (zeros (places + 1 - ds.length) ++ ds).toList
      let cut := padded.length - places
      let sign := if n then "-" else ""
      let fraction := if places = 0 then "" else "." ++ String.ofList (padded.drop cut)
      sign ++ String.ofList (padded.take cut) ++ fraction

end Layout

section Hexadecimal

/-- Lower-case hexadecimal digits, padded with zeros to the given length. -/
def hexadecimal (length n : Nat) : String :=
  let ds := Nat.toDigits 16 n
  zeros (length - ds.length) ++ String.ofList ds

end Hexadecimal

end Numeral
end ManagedHeap
