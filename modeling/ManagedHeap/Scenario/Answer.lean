import ManagedHeap.Call
import ManagedHeap.Engine
import ManagedHeap.Queue
import ManagedHeap.Scenario.Instruction
import ManagedHeap.Scenario.Names

/-!
# Answers

What an instruction shows once it is done, and what finalizers and agents showed meanwhile.
-/

namespace ManagedHeap

/-- Why an instruction could not even be tried. -/
inductive Refusal where
  | noObject
  | noReference
  | noReferenceOrObject
  | noQueue
  | noAgent
  | noEngine
  | notAttached
  | nested
  | phantomNeedsQueue
  | noSuchKind
  | noSuchStep
  deriving DecidableEq, Repr

def Refusal.message : Refusal → String
  | .noObject => "no object"
  | .noReference => "no reference"
  | .noReferenceOrObject => "no reference or object"
  | .noQueue => "no queue"
  | .noAgent => "no agent"
  | .noEngine => "no runtime"
  | .notAttached => "not attached"
  | .nested => "nested"
  | .phantomNeedsQueue => "phantom needs a queue"
  | .noSuchKind => "no such kind"
  | .noSuchStep => "no such step"

/-- A heap at a glance. -/
structure HeapView where
  capacity : Nat
  used : Nat
  available : Nat
  objects : Nat
  references : Nat
  totalAllocated : Nat
  utilization : Numeral.Value
  diagnosis : String
  deriving DecidableEq, Repr

/-- What an instruction came to. -/
inductive Answer where
  | null
  | flag (b : Bool)
  | number (n : Nat)
  /-- A call across the foreign boundary that has no number to give. -/
  | minusOne
  | object (id : ObjectId)
  | failed (e : Error)
  | fault (f : Fault)
  | refused (r : Refusal)
  /-- Settings that could not be read. -/
  | unreadable
  /-- A sequence of calls that ended early. -/
  | stoppedAt (index : Nat) (e : Error)
  | state (state : EngineState) (phase : Phase) (cycles : Nat)
  | settings (s : Settings)
  | blueprint (footprint : Nat) (spec : ObjectSpec)
  | sameness (roots hashes : Bool)
  | objectInfo (root : Root) (size fields : Except Error Nat) (live pending : Bool)
  | liveness (objects : List (Option (ObjectId × Bool × Bool)))
  | heap (view : HeapView)
  | report (r : Report)
  | statistics (s : Statistics)
  | sampleCounts (pauses waits : Nat)
  | events (events : List Event)
  | eventCount (n : Nat) (enabled : Bool)
  /-- The lines of a text, if it is there. -/
  | file (text : Option String)
  | printed (lines : List String)
  | reference (id : Nat) (kind : ReferenceKind) (stage : ReferenceStage)
  /-- With a queue, whether it is the one that was asked for. -/
  | referenceInfo (r : Reference) (queue : Option Bool)
  | queue (q : Queue)
  | mutator (m : Mutator)
  | mutators (ms : List Mutator)
  | selfInfo (m : Mutator)
  | safepoints (threads : Nat) (worldStopped : Bool) (reached : Nat)
  | worldStopped (threads : Nat)
  | agent (a : AgentHandle)
  /-- A handle across the foreign boundary, or null. -/
  | handle (present : Bool)

/-- What an action of a finalizer showed. -/
inductive ActionResult where
  | info (id : ObjectId) (live pending : Bool)
  | object (id : Option ObjectId)
  | done
  | failed (e : Error)
  | flag (b : Option Bool)
  | report (r : Report)

/-- What became of a finalizer. -/
inductive FinalizerNote where
  | ran (label thread : String) (results : List ActionResult)
  | discarded (label : String)

/-- What came out of a program while it ran, each list with the newest entry first. -/
structure Output where
  finalizers : List FinalizerNote := []
  /-- Notices with the agents that heard them. -/
  notices : List (String × Notice) := []
  records : List LogRecord := []
  /-- Lines on the console. -/
  printed : List String := []
  /-- Instructions that were done, by number. -/
  done : List (Nat × Answer) := []

/-- An output with the oldest entry of each list first. -/
def Output.inOrder (o : Output) : Output where
  finalizers := o.finalizers.reverse
  notices := o.notices.reverse
  records := o.records.reverse
  printed := o.printed.reverse
  done := o.done.reverse

end ManagedHeap
