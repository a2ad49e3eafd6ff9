import ManagedHeap.Numeral.Literal

/-!
# Footprint of an object

**Input.**  Payload bytes and number of reference fields, both below `2 ^ 64`.

**Algorithm.**  Header, payload and fields are added with saturation at the largest word, then
rounded up to the alignment.  The rounding adds the alignment first; that addition is checked and is
the only one that can fail.
-/

namespace ManagedHeap

/-- An arithmetic fault that ends a call without an answer. -/
inductive Fault where
  | addOverflow
  deriving DecidableEq, Repr

def Fault.message : Fault → String
  | .addOverflow => "attempt to add with overflow"

namespace Footprint

def headerBytes : Nat := 16

def referenceBytes : Nat := 8

/-- Objects occupy multiples of this many bytes. -/
def alignment : Nat := 8

def wordMax : Nat := Numeral.wordLimit - 1

def saturatingAdd (a b : Nat) : Nat := min (a + b) wordMax

def saturatingMul (a b : Nat) : Nat := min (a * b) wordMax

/-- The least multiple of the alignment that is not below `size`. -/
def alignUp (size : Nat) : Except Fault Nat :=
  if size + alignment < Numeral.wordLimit then .ok ((size + alignment - 1) / alignment * alignment)
  else .error .addOverflow

/-- Bytes that an object with the given payload and field count occupies. -/
def footprint (payload fields : Nat) : Except Fault Nat :=
  alignUp (saturatingAdd (saturatingAdd headerBytes payload) (saturatingMul fields referenceBytes))

end Footprint

end ManagedHeap
