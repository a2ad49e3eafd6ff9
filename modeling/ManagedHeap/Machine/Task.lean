import ManagedHeap.Call
import ManagedHeap.Finalization
import ManagedHeap.Safepoint.Operation
import ManagedHeap.Scenario.Answer

/-!
# Tasks

**Input.**  Calls in progress.

**Algorithm.**  A thread has a stack of tasks; the first one is next.  A task is one atomic section
of some call, or waits for something; what follows it in the same call stands behind it on the
stack.  The value of a call is passed through the reply of its thread.

**Results.**  The type `Task`; the modules beside this one say what each task does.
-/

namespace ManagedHeap

/-- A finalizer at run time. -/
structure Finalizer where
  label : String
  actions : List Action
  /-- Roots that the finalizer owns. -/
  held : List Root
  deriving DecidableEq, Repr

/-- What an agent needs when it is called. -/
structure Listener where
  label : String
  /-- Whether it records what it hears. -/
  listens : Bool
  /-- Start of the texts of notices after which it waits, and the gate at which it waits. -/
  gate : Option (String × String)
  deriving DecidableEq, Repr

/-- An object to allocate. -/
structure Request where
  size : Nat
  fields : Nat
  finalizer : Option Finalizer
  deriving DecidableEq, Repr

/-- What is still to do with the value of a call. -/
inductive Finish where
  /-- Show it. -/
  | plain
  /-- Bind the object, or drop its root. -/
  | object (bind : Option String)
  /-- Bind the reference, or drop its handle. -/
  | entry (bind : Option String)
  /-- Show how many threads stand still, and begin the stretch in which they do. -/
  | worldStopped (engine : Nat)
  /-- Show something else. -/
  | other (a : Answer)
  /-- Across the foreign boundary: report a failure and show whether there was none. -/
  | foreignFlag (action : String)
  /-- Across the foreign boundary: report a failure and show the number. -/
  | foreignCount (action : String)
  /-- Across the foreign boundary: report a failure, else bind or release the handle. -/
  | foreignObject (size : Nat) (bind : Option String)
  | foreignAttach

/-- One section of a call. -/
inductive Task where
  -- safepoints
  | registry (engine : Nat) (op : Operation)
  /-- Polls, if the thread is attached to the engine and its flag is up. -/
  | checkpoint (engine : Nat)
  /-- Runs the body as a blocking region. -/
  | blocking (hold : Hold) (body : Task)
  | endRegion
  /-- Attaches the thread under the number that the registry gave. -/
  | adopt (engine : Nat) (foreign : Bool)
  | forget
  -- agents
  | dispatch (engine : Nat) (notice : Notice)
  | deliver (engine : Nat) (notice : Notice) (recipients : List (Agent Listener))
  | delivered (engine : Nat)
  | gate (name : String)
  -- suspension
  | suspended (engine : Nat) (target : ThreadId)
  | selfPoll (engine : Nat) (target : ThreadId)
  | resumed (engine : Nat) (target : ThreadId)
  | repeatSuspend (engine : Nat) (target : ThreadId) (times : Nat)
  | interrupt (engine : Nat) (target : ThreadId)
  | wakeBlocked (engine : Nat) (target : ThreadId)
  | wakeQueue (queue : Nat)
  -- collections
  | lockCollector (engine : Nat)
  | unlockCollector (engine : Nat)
  | beginCycle (engine : Nat) (reason : Reason)
  | setPhase (engine : Nat) (phase : Phase)
  | pause (engine : Nat) (cycle : Nat) (reason : Reason)
  | dropFinalizers (finalizers : List Finalizer)
  | enqueuePending (engine : Nat) (pending : List Nat) (jobs : List (Job Finalizer))
      (report : Report)
  | schedule (engine : Nat) (jobs : List (Job Finalizer)) (report : Report)
  | enrol (engine : Nat) (jobs : List (Job Finalizer)) (report : Report)
  | send (engine : Nat) (jobs : List (Job Finalizer)) (report : Report)
  | finishCycle (engine : Nat) (report : Report)
  | reply (r : Reply)
  -- allocation
  | allocate (engine : Nat) (request : Request)
  | attempt (engine : Nat) (request : Request)
  | retry (engine : Nat) (request : Request) (size : Nat) (final : Bool)
  -- references and queues
  | clearReferent (h : Handle)
  | claimActive (h : Handle) (queue : Nat)
  | claimPending (h : Handle) (queue : Nat)
  | pushQueue (queue : Nat) (h : Handle)
  | releaseReference (h : Handle)
  | pollQueue (queue : Nat)
  /-- Waits for an entry, with the queue recorded as what blocks the thread. -/
  | waitOnQueue (queue : Nat) (ms : Option Nat)
  | setBlocker (queue : Option Nat)
  | awaitEntry (queue : Nat) (ms : Option Nat)
  | finishRemoval (queue : Nat) (h : Handle)
  -- finalization
  | serve (engine : Nat)
  | drain (engine : Nat) (runPending : Bool)
  | closeChannel (engine : Nat)
  | leaveService (engine : Nat)
  | announceExit (engine : Nat)
  | runJob (engine : Nat) (job : Job Finalizer)
  | body (engine : Nat) (job : Job Finalizer) (actions : List Action) (results : List ActionResult)
  /-- Takes the value of the call that an action made. -/
  | bodyResumes (engine : Nat) (job : Job Finalizer) (actions : List Action)
      (results : List ActionResult)
  /-- Keeps the object that a call has made under a name; without one it is dropped. -/
  | keepObject (bind : Option String)
  | dropHeld (roots : List Root)
  | finishObject (root : Root)
  | dropRoot (root : Root)
  | concludeJob (engine : Nat) (object : ObjectId) (panic : Option String)
  | countPanic (engine : Nat)
  | discardJobs (engine : Nat) (jobs : List (Job Finalizer)) (count : Nat)
  | dropJobs (jobs : List (Job Finalizer))
  | retire (engine : Nat) (count : Nat)
  | announce (engine : Nat)
  | runFinalization (engine : Nat) (ms : Nat)
  | awaitDrain (engine : Nat) (ms : Nat)
  -- the life of an engine
  | collect (engine : Nat) (reason : Reason)
  | collectOpen (engine : Nat)
  | stopEngine (engine : Nat)
  | shutdownCollected (engine : Nat)
  | refuseWork (engine : Nat)
  | claimReceiver (engine : Nat)
  | drainUnstarted (engine : Nat)
  | awaitExit (engine : Nat)
  | stopped (engine : Nat)
  | releaseEngine (engine : Nat)
  | releaseAgent (agent : AgentHandle)
  -- the program
  | perform (i : Instruction)
  | garbage (engine : Nat) (spec : ObjectSpec) (index remaining : Nat)
  | garbageNext (engine : Nat) (spec : ObjectSpec) (index remaining : Nat)
  | chain (engine : Nat) (size index remaining : Nat) (previous : Option Root)
      (bind : Option String)
  | chainNext (engine : Nat) (size index remaining : Nat) (previous : Option Root)
      (bind : Option String)
  | finish (f : Finish)
  /-- Ends an instruction that holds an engine. -/
  | conclude (engine : Nat) (f : Finish)

end ManagedHeap
