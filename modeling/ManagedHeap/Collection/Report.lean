/-!
# Collections: why and with what result

The reason for which a collection runs, the phase a collector is in, and the report of a finished
cycle.
-/

namespace ManagedHeap

/-- Why a collection runs. -/
inductive Reason where
  | explicit
  | allocationFailure (requested : Nat)
  | emergency (requested : Nat)
  | shutdown
  deriving DecidableEq, Repr

namespace Reason

/-- An emergency clears every soft reference it can. -/
def isEmergency : Reason → Bool
  | .emergency _ => true
  | _ => false

def display : Reason → String
  | .explicit => "Explicit"
  | .allocationFailure n => "AllocationFailure(" ++ toString n ++ " bytes)"
  | .emergency n => "Emergency(" ++ toString n ++ " bytes)"
  | .shutdown => "Shutdown"

end Reason

/-- What a collector is doing. -/
inductive Phase where
  | idle
  | stopping
  | marking
  | processingReferences
  | sweeping
  | enqueuing
  deriving DecidableEq, Repr

def Phase.name : Phase → String
  | .idle => "Idle"
  | .stopping => "Stopping"
  | .marking => "Marking"
  | .processingReferences => "ProcessingReferences"
  | .sweeping => "Sweeping"
  | .enqueuing => "Enqueuing"

/-- Result of a finished cycle; times are in nanoseconds. -/
structure Report where
  cycle : Nat
  reason : Reason
  threadsStopped : Nat := 0
  markedObjects : Nat := 0
  reclaimedObjects : Nat := 0
  reclaimedBytes : Nat := 0
  softCleared : Nat := 0
  weakCleared : Nat := 0
  phantomCleared : Nat := 0
  referencesEnqueued : Nat := 0
  finalizersScheduled : Nat := 0
  safepointWait : Nat := 0
  pause : Nat := 0
  deriving DecidableEq, Repr

end ManagedHeap
