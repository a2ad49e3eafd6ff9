import ManagedHeap.Numeral.Binary

/-!
# Decimal literals

**Input.**  A literal as it was written: sign, digits before and after the point, exponent.

**Algorithm.**  Two readings are offered.  `Literal.nearest` takes the literal as an exact ratio and
rounds once.  `Literal.scaled?` keeps the leading digits that fit a 64-bit word and scales that word
by powers of ten in double arithmetic, as document readers do; it fails when the result would be
infinite.

**Results.**  `Literal.number` classifies a literal as a natural number, a negative integer or a
floating value.  `natural?` and `real?` read whole texts.
-/

namespace ManagedHeap
namespace Numeral

def wordLimit : Nat := UInt64.size

/-- A decimal literal as written. -/
structure Literal where
  negative : Bool
  /-- Digits before the point. -/
  whole : List Nat
  /-- Digits after the point, if there is one. -/
  fraction : Option (List Nat)
  /-- Sign and digits of the exponent, if there is one. -/
  exponent : Option (Bool × List Nat)
  deriving DecidableEq, Repr

/-- The number that a list of digits writes. -/
def ofDigits (ds : List Nat) : Nat := ds.foldl (fun n d => n * 10 + d) 0

namespace Literal

/-- Digits of the fraction; none without a point. -/
def fractionDigits (l : Literal) : List Nat := l.fraction.getD []

def writtenExponent (l : Literal) : Int :=
  match l.exponent with
  | none => 0
  | some (true, ds) => -((ofDigits ds : Nat) : Int)
  | some (false, ds) => ((ofDigits ds : Nat) : Int)

/-- Whether the literal has neither a point nor an exponent. -/
def isInteger (l : Literal) : Bool := l.fraction.isNone && l.exponent.isNone

section Exact

/-- Decimal exponents beyond this bound are out of the range of every format here. -/
def exponentBound : Int := 2000

def nearest (f : Format) (l : Literal) : Value :=
  let digits := ofDigits (l.whole ++ l.fractionDigits)
  let count : Int := (l.whole ++ l.fractionDigits).length
  let e := l.writtenExponent - l.fractionDigits.length
  if digits = 0 then f.zero l.negative
  else if exponentBound < e then .infinite l.negative
  else if e + count < -exponentBound then f.zero l.negative
  else if 0 ≤ e then f.round l.negative (digits * Nat.pow 10 e.toNat) 1
  else f.round l.negative digits (Nat.pow 10 (-e).toNat)

end Exact

section Scaled

/-- Appends digits while the word does not overflow; the rest is returned. -/
def absorb (word : Nat) : List Nat → Nat × List Nat
  | [] => (word, [])
  | d :: ds => if word * 10 + d < wordLimit then absorb (word * 10 + d) ds else (word, d :: ds)

/-- Largest exponent that a reader keeps exactly. -/
def exponentLimit : Nat := Nat.pow 2 31

def powerOfTen (n : Nat) : Value := Format.double.round false (Nat.pow 10 n) 1

/-- Scales a double by a power of ten; `none` when it would become infinite. -/
def rescale? : Nat → Value → Int → Option Value
  | 0, v, _ => some v
  | fuel + 1, v, e =>
      if e.natAbs ≤ 308 then
        if 0 ≤ e then
          let r := v.mul .double (powerOfTen e.toNat)
          if r.isInfinite then none else some r
        else some (v.div .double (powerOfTen (-e).toNat))
      else if v.isZero then some v
      else if 0 ≤ e then none
      else rescale? fuel (v.div .double (powerOfTen 308)) (e + 308)

/-- The literal as a double, from the digits that fit a word; `none` when it is too large. -/
def scaled? (l : Literal) : Option Value :=
  let whole := absorb 0 l.whole
  let all := absorb whole.1 l.fractionDigits
  let start : Int := whole.2.length - ((l.fractionDigits.length - all.2.length : Nat) : Int)
  let signed (v : Value) : Value := if l.negative then v.neg else v
  let huge : Bool := match l.exponent with
    | some (_, ds) => exponentLimit ≤ ofDigits ds
    | none => false
  if huge then
    match l.exponent with
    | some (false, _) => if all.1 = 0 then some (signed (Format.double.zero false)) else none
    | _ => some (signed (Format.double.zero false))
  else (rescale? 8 (Format.double.ofNat all.1) (start + l.writtenExponent)).map signed

end Scaled

end Literal

/-- A number in a document. -/
inductive Number where
  | natural (n : Nat)
  /-- The integer `-n`, with `n` positive. -/
  | negative (n : Nat)
  | real (v : Value)
  deriving DecidableEq, Repr

/-- Integers in the 64-bit ranges keep their value, a negative zero and all other literals are
floating. -/
def Literal.number? (l : Literal) : Option Number :=
  let n := ofDigits l.whole
  if l.isInteger && !l.negative && decide (n < wordLimit) then some (.natural n)
  else if l.isInteger && l.negative && decide (n ≠ 0) &&
    decide (n ≤ Nat.pow 2 63) then some (.negative n)
  else l.scaled?.map .real

/-- The number rounded to a format; integers are rounded directly, floating values once more. -/
def Number.toFormat (f : Format) : Number → Value
  | .natural n => f.round false n 1
  | .negative n => f.round true n 1
  | .real v => v.toFormat f

section Texts

def digit? (c : Char) : Option Nat :=
  if '0' ≤ c ∧ c ≤ '9' then some (c.toNat - '0'.toNat) else none

/-- The longest run of digits at the front, and the rest. -/
def spanDigits : List Char → List Nat × List Char
  | [] => ([], [])
  | c :: cs =>
      match digit? c with
      | some d => (d :: (spanDigits cs).1, (spanDigits cs).2)
      | none => ([], c :: cs)

/-- A natural number below the limit, with an optional plus sign and nothing around it. -/
def natural? (limit : Nat) (s : String) : Option Nat :=
  let cs := match s.toList with
    | '+' :: rest => rest
    | cs => cs
  match spanDigits cs with
  | ([], _) => none
  | (ds, []) => if ofDigits ds < limit then some (ofDigits ds) else none
  | _ => none

/-- The exponent part of a literal, which has to end the text. -/
def exponentPart? : List Char → Option (Option (Bool × List Nat))
  | [] => some none
  | c :: cs =>
      if c = 'e' ∨ c = 'E' then
        let (negative, rest) := match cs with
          | '-' :: rest => (true, rest)
          | '+' :: rest => (false, rest)
          | rest => (false, rest)
        match spanDigits rest with
        | ([], _) => none
        | (ds, []) => some (some (negative, ds))
        | _ => none
      else none

/-- A literal without its sign: digits with a point anywhere among them, then perhaps an
exponent. -/
def unsignedLiteral? (negative : Bool) (cs : List Char) : Option Literal :=
  let (whole, rest) := spanDigits cs
  let (fraction, rest) := match rest with
    | '.' :: tail => (some (spanDigits tail).1, (spanDigits tail).2)
    | rest => (none, rest)
  if whole.isEmpty && (fraction.getD []).isEmpty then none
  else (exponentPart? rest).map fun e => ⟨negative, whole, fraction, e⟩

/-- A floating value of a format read from a whole text; the names of the special values have any
case. -/
def real? (f : Format) (s : String) : Option Value :=
  let (negative, cs) := match s.toList with
    | '-' :: rest => (true, rest)
    | '+' :: rest => (false, rest)
    | cs => (false, cs)
  let name := String.ofList (cs.map Char.toLower)
  if name = "inf" ∨ name = "infinity" then some (.infinite negative)
  else if name = "nan" then some (.nan negative)
  else (unsignedLiteral? negative cs).map (·.nearest f)

end Texts

end Numeral
end ManagedHeap
