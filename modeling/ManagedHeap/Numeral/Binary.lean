/-!
# Binary floating-point values

**Input.**  A format (significand bits and exponent bits) and an exact ratio of two natural numbers.

**Algorithm.**  A finite value is kept as `mantissa * 2 ^ exponent`.  Rounding picks the exponent
for which the mantissa fills the format's precision, divides exactly, and sends a half to the even
neighbour.  Products and quotients are formed exactly and rounded once.

**Results.**  `Format.encode` and `Format.decode` pass between values and interchange bit patterns;
a value of the narrow format is a value of the wide one without change.
-/

namespace ManagedHeap
namespace Numeral

/-- A binary interchange format. -/
structure Format where
  /-- Significand bits, the leading one included. -/
  precision : Nat
  /-- Bits of the exponent field. -/
  width : Nat
  deriving DecidableEq, Repr

/-- A floating-point value; a finite one is `mantissa * 2 ^ exponent`. -/
inductive Value where
  | nan (negative : Bool)
  | infinite (negative : Bool)
  | finite (negative : Bool) (mantissa : Nat) (exponent : Int)
  deriving DecidableEq, Repr

section Rounding

/-- The quotient rounded to the nearest integer, a half going to the even neighbour. -/
def roundDiv (a b : Nat) : Nat :=
  if 2 * (a % b) < b then a / b
  else if b < 2 * (a % b) then a / b + 1
  else a / b + (a / b) % 2

def scaleDown (a b : Nat) (e : Int) : Nat × Nat :=
  if 0 ≤ e then (a, b * Nat.pow 2 e.toNat) else (a * Nat.pow 2 (-e).toNat, b)

/-- The largest `l` with `2 ^ l ≤ a / b`, for positive `a` and `b`. -/
def floorLog2 (a b : Nat) : Int :=
  let guess : Int := (a.log2 : Int) - (b.log2 : Int)
  let r := scaleDown a b guess
  if r.2 ≤ r.1 then guess else guess - 1

end Rounding

namespace Format

def double : Format := ⟨53, 11⟩

def single : Format := ⟨24, 8⟩

variable (f : Format)

/-- Exponent of the smallest positive value. -/
def least : Int := 3 - (Nat.pow 2 (f.width - 1) : Int) - (f.precision : Int)

def greatest : Int := f.least + (Nat.pow 2 f.width : Int) - 3

def zero (negative : Bool) : Value := .finite negative 0 f.least

/-- A rounded mantissa that may have carried into one more bit; past the last exponent it is
infinite. -/
def carry (negative : Bool) (m : Nat) (e : Int) : Value :=
  if m = Nat.pow 2 f.precision then
    if f.greatest < e + 1 then .infinite negative
      else .finite negative (Nat.pow 2 (f.precision - 1)) (e + 1)
  else if f.greatest < e then .infinite negative
  else .finite negative m e

/-- The value nearest to `a / b`; a zero denominator counts as zero. -/
def round (negative : Bool) (a b : Nat) : Value :=
  if a = 0 ∨ b = 0 then f.zero negative
  else
    let e := max f.least (floorLog2 a b - ((f.precision - 1 : Nat) : Int))
    let r := scaleDown a b e
    f.carry negative (roundDiv r.1 r.2) e

def ofNat (n : Nat) : Value := f.round false n 1

/-- Bit pattern of a value of this format; every not-a-number has the quiet pattern. -/
def encode : Value → Nat
  | .nan n =>
    signBit n + (Nat.pow 2 f.width - 1) * Nat.pow 2 (f.precision - 1) + Nat.pow 2 (f.precision - 2)
  | .infinite n => signBit n + (Nat.pow 2 f.width - 1) * Nat.pow 2 (f.precision - 1)
  | .finite n m e => signBit n + (e - f.least).toNat * Nat.pow 2 (f.precision - 1) + m
where
  /-- The top bit, set for negative values. -/
  signBit (n : Bool) : Nat := if n then Nat.pow 2 (f.width + f.precision - 1) else 0

def decode (bits : Nat) : Value :=
  let negative := bits / Nat.pow 2 (f.width + f.precision - 1) % 2 = 1
  let field := bits / Nat.pow 2 (f.precision - 1) % Nat.pow 2 f.width
  let fraction := bits % Nat.pow 2 (f.precision - 1)
  if field = Nat.pow 2 f.width - 1 then
    if fraction = 0 then .infinite negative else .nan negative
  else if field = 0 then .finite negative fraction f.least
  else .finite negative (fraction + Nat.pow 2 (f.precision - 1)) (f.least + (field : Int) - 1)

end Format

namespace Value

/-- Sign of a value, also of zero and of not-a-number. -/
def negative : Value → Bool
  | .nan n => n
  | .infinite n => n
  | .finite n _ _ => n

def neg : Value → Value
  | .nan n => .nan !n
  | .infinite n => .infinite !n
  | .finite n m e => .finite (!n) m e

/-- The magnitude of a finite value as a ratio. -/
def ratio (m : Nat) (e : Int) : Nat × Nat :=
  if 0 ≤ e then (m * Nat.pow 2 e.toNat, 1) else (m, Nat.pow 2 (-e).toNat)

def toFormat (f : Format) : Value → Value
  | .finite n m e => f.round n (ratio m e).1 (ratio m e).2
  | v => v

/-- Product, formed exactly and rounded once. -/
def mul (f : Format) : Value → Value → Value
  | .nan n, _ => .nan n
  | _, .nan n => .nan n
  | .infinite n, .infinite k => .infinite (n != k)
  | .infinite n, .finite k m _ => if m = 0 then .nan true else .infinite (n != k)
  | .finite n m _, .infinite k => if m = 0 then .nan true else .infinite (n != k)
  | .finite n m e, .finite k m' e' =>
      f.round (n != k) (ratio (m * m') (e + e')).1 (ratio (m * m') (e + e')).2

/-- Quotient, formed exactly and rounded once. -/
def div (f : Format) : Value → Value → Value
  | .nan n, _ => .nan n
  | _, .nan n => .nan n
  | .infinite _, .infinite _ => .nan true
  | .infinite n, .finite k _ _ => .infinite (n != k)
  | .finite n _ _, .infinite k => f.zero (n != k)
  | .finite n m e, .finite k m' e' =>
      if m' = 0 then (if m = 0 then .nan true else .infinite (n != k))
      else
        let a := ratio m e
        let b := ratio m' e'
        f.round (n != k) (a.1 * b.2) (a.2 * b.1)

def magnitudeLe (m : Nat) (e : Int) (m' : Nat) (e' : Int) : Bool :=
  (ratio m e).1 * (ratio m' e').2 ≤ (ratio m' e').1 * (ratio m e).2

/-- The numerical order; not-a-number is related to nothing, both zeros are equal. -/
def le : Value → Value → Bool
  | .nan _, _ => false
  | _, .nan _ => false
  | .infinite n, .infinite k => n || !k
  | .infinite n, .finite _ _ _ => n
  | .finite _ _ _, .infinite k => !k
  | .finite n m e, .finite k m' e' =>
      match n, k with
      | false, false => magnitudeLe m e m' e'
      | true, true => magnitudeLe m' e' m e
      | true, false => true
      | false, true => m = 0 && m' = 0

def isInfinite : Value → Bool
  | .infinite _ => true
  | _ => false

/-- Whether the value is one of the two zeros. -/
def isZero : Value → Bool
  | .finite _ 0 _ => true
  | _ => false

/-- The least integer not below the value, brought into `0 ≤ n < limit`; not-a-number gives zero. -/
def ceilBelow (limit : Nat) : Value → Nat
  | .nan _ => 0
  | .infinite n => if n then 0 else limit - 1
  | .finite n m e =>
      if n then 0
      else min (((ratio m e).1 + (ratio m e).2 - 1) / (ratio m e).2) (limit - 1)

end Value

end Numeral
end ManagedHeap
