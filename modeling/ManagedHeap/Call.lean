import ManagedHeap.Collection.Report
import ManagedHeap.Heap.Basic
import ManagedHeap.Object.Footprint

/-!
# What calls come to

A call on a runtime ends with a value, with an error, or with an arithmetic fault.
-/

namespace ManagedHeap

/-- Names a reference: its heap and its position there. -/
structure Handle where
  heap : Nat
  position : Nat
  deriving DecidableEq, Repr

/-- What a call came to. -/
inductive Reply where
  | unit
  | flag (b : Bool)
  | count (n : Nat)
  /-- A count that was changed, or nothing if there was nothing to change. -/
  | change (n : Option Nat)
  | object (r : Option Root)
  | entry (h : Option Handle)
  | report (r : Report)
  | failed (e : Error)
  | fault (f : Fault)
  deriving DecidableEq, Repr

end ManagedHeap
