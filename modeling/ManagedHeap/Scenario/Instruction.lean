import ManagedHeap.Agent
import ManagedHeap.Collection.Report
import ManagedHeap.Heap.Reference
import ManagedHeap.Journal.Basic
import ManagedHeap.Settings.Basic

/-!
# Instructions

What the threads of a program do, one instruction at a time: calls on runtimes, objects, references,
queues, threads and agents, and calls across the foreign boundary.  Things are given by name; the
field `engine` is always the name of a runtime.
-/

namespace ManagedHeap

/-- What a finalizer does, one action at a time. -/
inductive Action where
  | info
  | getField (index : Nat) (bind : Option String)
  | setField (index : Nat) (value : Option String)
  /-- Keeps the object under a name; without one it is not kept. -/
  | resurrect (bind : Option String)
  | getReferent (reference : String)
  | enqueue (reference : String)
  | collect
  /-- Allocates an object and keeps it under a name; without one it is dropped. -/
  | allocate (size fields : Nat) (bind : Option String)
  /-- Waits until a gate is open. -/
  | gate (name : String)
  /-- Ends the body; a payload that is no text has no message. -/
  | panic (message : Option String)
  deriving DecidableEq, Repr

/-- A finalizer as the program writes it. -/
structure FinalizerSpec where
  label : String
  actions : List Action
  /-- Names of the objects that the finalizer holds. -/
  holds : List String
  deriving DecidableEq, Repr

/-- An object as the program asks for it. -/
structure ObjectSpec where
  size : Nat
  fields : Nat := 0
  finalizer : Option FinalizerSpec := none
  deriving DecidableEq, Repr

def ObjectSpec.inspect (s : ObjectSpec) : String :=
  Text.inspectRecord "ObjectBuilder" [("size", toString s.size), ("fields", toString s.fields),
    ("finalizer", Text.inspectBool s.finalizer.isSome)]

/-- A runtime as the program asks for it. -/
structure EngineSpec where
  /-- Nothing if the settings could not be read. -/
  settings : Option Settings
  /-- What is behind the path of the journal file. -/
  disk : Disk
  start : Bool
  deriving DecidableEq, Repr

/-- A call across the foreign boundary; an unbound name is a null handle. -/
inductive ForeignCall where
  | create (engine : String) (settings : Settings)
  | destroy (engine : String)
  | collect (engine : String)
  | finalize (engine : String) (ms : Nat)
  | pending (engine : String)
  | allocate (engine : String) (size fields : Nat) (bind : Option String)
  | release (object : String)
  | setField (engine object : String) (index : Nat) (value : Option String)
  | getField (engine object : String) (index : Nat) (bind : Option String)
  | newWeak (engine object reference : String)
  | getReferent (reference : String) (bind : Option String)
  | releaseReference (reference : String)
  | attach (engine : String) (name : Option String)
  | detach
  | poll
  | suspend (engine : String) (id : ThreadId)
  | resume (engine : String) (id : ThreadId)
  | suspendCount (engine : String) (id : ThreadId)
  | interrupt (engine : String) (id : ThreadId)

/-- One instruction of a program. -/
inductive Instruction where
  | makeEngine (engine : String) (spec : EngineSpec)
  | dropEngine (engine : String)
  | start (engine : String)
  | stop (engine : String)
  | state (engine : String)
  | settings (engine : String)
  | allocate (engine : String) (spec : ObjectSpec) (bind : Option String)
  | garbage (engine : String) (n : Nat) (spec : ObjectSpec)
  | chain (engine : String) (n size : Nat) (bind : Option String)
  /-- A finalizer belongs to a runtime: without that runtime the object is built without it. -/
  | build (engine : String) (spec : ObjectSpec)
  | cloneRoot (object : String) (bind : Option String)
  | dropRoots (objects : List String)
  | sameRoot (a b : String)
  | getField (engine object : String) (index : Nat) (bind : Option String)
  | setField (engine object : String) (index : Nat) (value : Option String)
  | objectInfo (engine object : String)
  | liveness (engine : String) (objects : List String)
  | heap (engine : String)
  /-- Without a reason the engine itself is asked, which refuses once it is stopped. -/
  | collect (engine : String) (reason : Option Reason)
  | runFinalization (engine : String) (ms : Nat)
  | statistics (engine : String)
  /-- Numbers of samples in the histograms. -/
  | sampleCounts (engine : String)
  | resetStatistics (engine : String)
  | events (engine : String)
  | eventCount (engine : String)
  | clearEvents (engine : String)
  | enableJournal (engine : String)
  | disableJournal (engine : String)
  | journalFile (engine : String)
  | console
  | openGate (name : String)
  | newReference (engine reference object : String) (kind : Option ReferenceKind)
      (queue : Option String)
  | getReferent (reference : String) (bind : Option String)
  | referenceInfo (reference : String) (queue : Option String)
  | clearReference (reference : String)
  | cloneReference (reference : String) (bind : Option String)
  | enqueue (reference : String)
  | refersTo (reference object : String)
  | dropReference (reference : String)
  | sameReference (a b : String)
  | poll (queue : Option String) (bind : Option String)
  /-- Without a time the wait has no end. -/
  | remove (queue : Option String) (ms : Option Nat) (bind : Option String)
  | queueInfo (queue : Option String)
  | dropQueue (queue : String)
  | attach (engine name : String)
  | detach
  | safepoint
  | selfInfo
  | isInterrupted
  | takeInterrupt
  | checkSafepoint (engine : String)
  | enterBlocking
  | leaveBlocking (engine : String)
  | stopWorld (engine : String) (initiator : Option ThreadId)
  | releaseWorld (engine : String)
  | suspend (engine : String) (id : ThreadId)
  | resume (engine : String) (id : ThreadId)
  | requestSuspend (engine : String) (id : ThreadId) (times : Nat)
  | requestResume (engine : String) (id : ThreadId)
  | interrupt (engine : String) (id : ThreadId)
  | isSuspended (engine : String) (id : ThreadId)
  | awaitSuspension (engine : String) (id : ThreadId) (ms : Nat)
  | threadInfo (engine : String) (id : ThreadId)
  | threads (engine : String)
  | safepoints (engine : String)
  /-- A listening agent records what it hears; `gate` makes it wait after notices whose text starts
  so. -/
  | registerAgent (engine agent : String) (capabilities : Capabilities) (listens : Bool)
      (gate : Option (String × String))
  | agentInfo (agent : String)
  | dropAgent (agent : String)
  | agentSuspend (agent : String) (id : ThreadId)
  | agentResume (agent : String) (id : ThreadId)
  | agentAwait (agent : String) (id : ThreadId) (ms : Nat)
  | agentThreadInfo (agent : String) (id : ThreadId)
  | agentThreads (agent : String)
  | foreign (call : ForeignCall)
  | unknown (engine : String)

/-- Where the time comes from that an instruction may wait. -/
inductive TimeLimit where
  /-- It waits for as long as it takes. -/
  | never
  /-- The time was given with the call. -/
  | given (ms : Nat)
  /-- The settings of a runtime say how long threads may take to stop. -/
  | safepoint (engine : String)
  /-- The settings of a runtime say how long its shutdown may take. -/
  | shutdown (engine : String)
  deriving DecidableEq, Repr

/-- The time limit of an instruction.  Stopping a runtime goes by the time for its shutdown alone,
although a collection may be part of it; behind the foreign boundary only a time that was given with
the call counts. -/
def Instruction.timeLimit : Instruction → TimeLimit
  | .dropEngine engine | .stop engine => .shutdown engine
  | .allocate engine .. | .garbage engine .. | .chain engine .. => .safepoint engine
  | .collect engine _ | .stopWorld engine _ => .safepoint engine
  | .runFinalization _ ms | .remove _ (some ms) _ | .awaitSuspension _ _ ms | .agentAwait _ _ ms =>
    .given ms
  | .foreign (.finalize _ ms) => .given ms
  | _ => .never

end ManagedHeap
