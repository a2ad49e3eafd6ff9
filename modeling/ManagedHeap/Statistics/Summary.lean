import ManagedHeap.Collection.Report
import ManagedHeap.Statistics.Histogram

/-!
# Statistics of a runtime

Counters that wrap at `2 ^ 64` and two histograms: of the pauses and of the waits for a safepoint.
Collections are counted from their reports, finalizers where they are scheduled, run and discarded.
-/

namespace ManagedHeap

/-- Counters and histograms of a runtime. -/
structure Statistics where
  totalCycles : Nat := 0
  emergencyCycles : Nat := 0
  objectsReclaimed : Nat := 0
  bytesReclaimed : Nat := 0
  softCleared : Nat := 0
  weakCleared : Nat := 0
  phantomCleared : Nat := 0
  referencesEnqueued : Nat := 0
  finalizersScheduled : Nat := 0
  finalizersCompleted : Nat := 0
  finalizersPanicked : Nat := 0
  finalizersDiscarded : Nat := 0
  pauses : Histogram := .empty
  safepointWaits : Histogram := .empty
  deriving DecidableEq, Repr

namespace Statistics

def bump (counter amount : Nat) : Nat := (counter + amount) % Numeral.wordLimit

def recordCollection (s : Statistics) (r : Report) : Statistics :=
  { s with
    totalCycles := bump s.totalCycles 1
    emergencyCycles := if r.reason.isEmergency then bump s.emergencyCycles 1 else s.emergencyCycles
    objectsReclaimed := bump s.objectsReclaimed r.reclaimedObjects
    bytesReclaimed := bump s.bytesReclaimed r.reclaimedBytes
    softCleared := bump s.softCleared r.softCleared
    weakCleared := bump s.weakCleared r.weakCleared
    phantomCleared := bump s.phantomCleared r.phantomCleared
    referencesEnqueued := bump s.referencesEnqueued r.referencesEnqueued
    pauses := s.pauses.record (r.pause % Numeral.wordLimit)
    safepointWaits := s.safepointWaits.record (r.safepointWait % Numeral.wordLimit) }

/-- Counts finalizers handed to the finalizer thread. -/
def recordScheduled (s : Statistics) (n : Nat) : Statistics :=
  { s with finalizersScheduled := bump s.finalizersScheduled n }

def recordCompleted (s : Statistics) : Statistics :=
  { s with finalizersCompleted := bump s.finalizersCompleted 1 }

def recordPanicked (s : Statistics) : Statistics :=
  { s with finalizersPanicked := bump s.finalizersPanicked 1 }

/-- Counts finalizers dropped without running. -/
def recordDiscarded (s : Statistics) (n : Nat) : Statistics :=
  { s with finalizersDiscarded := bump s.finalizersDiscarded n }

/-- Nanoseconds as milliseconds in double arithmetic. -/
def millis (nanos : Nat) : Numeral.Value :=
  (Numeral.Format.double.ofNat nanos).div .double (Numeral.Format.double.ofNat 1000000)

def avgPauseMs (s : Statistics) : Numeral.Value := millis s.pauses.mean

def maxPauseMs (s : Statistics) : Numeral.Value := millis s.pauses.maximum

/-- Bound of all but one in a hundred pauses in milliseconds. -/
def p99PauseMs (s : Statistics) : Numeral.Value := millis s.pauses.p99

end Statistics

end ManagedHeap
