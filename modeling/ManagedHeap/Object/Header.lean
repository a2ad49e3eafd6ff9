import ManagedHeap.Text.Inspect

/-!
# Object headers

A header holds the footprint of its object and three flags: reached in the current trace, finalizer
not yet taken, finalizer taken and not yet finished.
-/

namespace ManagedHeap

/-- Header of an object. -/
structure Header where
  size : Nat
  marked : Bool := false
  finalizable : Bool := false
  pending : Bool := false
  deriving DecidableEq, Repr

namespace Header

def fresh (size : Nat) (finalizable : Bool) : Header := ⟨size, false, finalizable, false⟩

def markedMask : Nat := 1

/-- Bit of an attached finalizer in the flag word. -/
def finalizableMask : Nat := 2

/-- Bit of a taken, unfinished finalizer in the flag word. -/
def pendingMask : Nat := 4

def flags (h : Header) : Nat :=
  (if h.marked then markedMask else 0) + (if h.finalizable then finalizableMask else 0) +
    (if h.pending then pendingMask else 0)

def mark (h : Header) : Header := { h with marked := true }

def unmark (h : Header) : Header := { h with marked := false }

/-- The finalizer is taken: it is no longer attached, and it is unfinished. -/
def scheduleFinalizer (h : Header) : Header := { h with finalizable := false, pending := true }

def finishFinalizer (h : Header) : Header := { h with pending := false }

def inspect (h : Header) : String :=
  Text.inspectRecord "ObjectHeader" [("flags", toString h.flags), ("size", toString h.size)]

end Header

end ManagedHeap
