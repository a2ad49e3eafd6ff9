import ManagedHeap.Collection.Report
import ManagedHeap.Heap.Reference
import ManagedHeap.Settings.Basic

/-!
# Clearing soft references

A collection clears the soft references to objects that nothing else holds: all of them in an
emergency or when the strongly held bytes fill the heap up to a threshold, otherwise those that were
not used for a number of collections.
-/

namespace ManagedHeap

/-- Which soft references a collection may clear. -/
structure SoftPolicy where
  clearAll : Bool
  /-- Collections after which an unused reference may be cleared; zero for never. -/
  lruCycles : Nat
  /-- Number of collections before this one. -/
  clock : Nat
  deriving DecidableEq, Repr

namespace SoftPolicy

/-- The policy of a collection; `utilization` is the strongly held share of the heap. -/
def ofSettings (s : Settings) (reason : Reason) (utilization : Numeral.Value) (clock : Nat) :
    SoftPolicy where
  clearAll := reason.isEmergency || (s.softRefClearThreshold.toFormat .double).le utilization
  lruCycles := s.softRefLruCycles
  clock := clock

/-- Whether the policy gives up a reference. -/
def gives (p : SoftPolicy) (r : Reference) : Bool :=
  p.clearAll || (decide (0 < p.lruCycles) && decide (p.lruCycles ≤ p.clock - r.lastAccess))

end SoftPolicy

end ManagedHeap
