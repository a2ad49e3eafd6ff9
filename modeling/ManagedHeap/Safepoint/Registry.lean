import ManagedHeap.Error

/-!
# The registry of attached threads

**Input.**  Threads that attach and detach, requests to stop all of them or to suspend one.

**Algorithm.**  One record per attached thread: its status, how often it was suspended, and a flag
that it reads without the lock to learn that it has to come in.  A thread stands still when it is
parked at a safepoint or inside a blocking region.  Waiting is explicit: the registry lists who is
asleep until something changes, and every change that can release somebody empties the list.

**Results.**  The pieces of a critical section; `Safepoint/Operation` puts them together.
-/

namespace ManagedHeap

/-- What an attached thread is doing, as others see it. -/
inductive ThreadStatus where
  | running
  /-- Asked to stop, and has not come in yet. -/
  | safepointRequested
  /-- Parked at a safepoint. -/
  | suspended
  /-- Inside a blocking region. -/
  | blocked
  deriving DecidableEq, Repr

def ThreadStatus.name : ThreadStatus → String
  | .running => "Running"
  | .safepointRequested => "SafepointRequested"
  | .suspended => "Suspended"
  | .blocked => "Blocked"

/-- An attached thread. -/
structure Mutator where
  id : ThreadId
  name : String
  status : ThreadStatus := .running
  /-- Suspensions not yet matched by a resumption. -/
  suspendCount : Nat := 0
  /-- Whether the thread must come in at its next poll. -/
  pollRequested : Bool := false
  interrupted : Bool := false
  /-- The queue on which the thread waits. -/
  blocker : Option Nat := none
  deriving DecidableEq, Repr

namespace Mutator

def requestStop (m : Mutator) : Mutator :=
  if m.status = .running then { m with status := .safepointRequested, pollRequested := true } else m

def withdrawRequest (m : Mutator) : Mutator :=
  { m with
    status := if m.status = .safepointRequested then .running else m.status
    pollRequested := false }

/-- Back to running; a suspension that was put off stays requested. -/
def resumeRunning (m : Mutator) : Mutator :=
  if 0 < m.suspendCount then { m with status := .running }.requestStop
  else { m with status := .running, pollRequested := false }

def isStopped (m : Mutator) : Bool := decide (m.status = .suspended) || decide (m.status = .blocked)

/-- Whether the thread was suspended and stands still. -/
def isSuspended (m : Mutator) : Bool := decide (0 < m.suspendCount) && m.isStopped

end Mutator

/-- What keeps a parked thread: anything, or only a pause. -/
inductive Hold where
  | any
  | pause
  deriving DecidableEq, Repr

/-- The attached threads of a runtime. -/
structure Registry where
  /-- In the order of attachment. -/
  mutators : List Mutator := []
  nextId : ThreadId := 1
  worldStopped : Bool := false
  /-- Who stopped the world, if attached. -/
  initiator : Option ThreadId := none
  /-- Number of times that a thread was parked. -/
  reached : Nat := 0
  /-- How long a pause waits for threads, in milliseconds. -/
  timeout : Option Nat := none
  /-- The threads that are asleep until something changes. -/
  asleep : List Nat := []
  deriving DecidableEq, Repr

namespace Registry

section Entries

def get? (r : Registry) (id : ThreadId) : Option Mutator := r.mutators.find? (·.id == id)

/-- The record of an attached thread, or the error that there is none. -/
def find (r : Registry) (id : ThreadId) : Except Error Mutator :=
  match r.get? id with
  | some m => .ok m
  | none => .error (.threadNotFound id)

/-- Changes the record of an attached thread. -/
def update (r : Registry) (id : ThreadId) (f : Mutator → Mutator) : Registry :=
  { r with mutators := r.mutators.map fun m => if m.id = id then f m else m }

end Entries

section Sleep

def sleep (r : Registry) (thread : Nat) : Registry := { r with asleep := r.asleep ++ [thread] }

def wakeAll (r : Registry) : Registry := { r with asleep := [] }

/-- Wakes one thread, whose time has run out. -/
def wake (r : Registry) (thread : Nat) : Registry :=
  { r with asleep := r.asleep.filter (· != thread) }

def isAsleep (r : Registry) (thread : Nat) : Bool := r.asleep.contains thread

end Sleep

section Holds

/-- Whether a pause that it did not start holds a thread. -/
def heldByPause (r : Registry) (id : ThreadId) : Bool :=
  r.worldStopped && r.initiator != some id && (r.get? id).isSome

def mustPark (r : Registry) (id : ThreadId) : Bool :=
  match r.get? id with
  | some m => decide (0 < m.suspendCount) || (r.worldStopped && r.initiator != some id)
  | none => false

/-- Whether a thread stays parked under the given hold. -/
def holds (r : Registry) (id : ThreadId) : Hold → Bool
  | .any => r.mustPark id
  | .pause => r.heldByPause id

end Holds

section World

/-- Whether a thread keeps the world from standing still. -/
def delays (r : Registry) (m : Mutator) : Bool := r.initiator != some m.id && !m.isStopped

/-- Whether everybody but the initiator stands still. -/
def allStopped (r : Registry) : Bool := r.mutators.all fun m => !r.delays m

/-- Who keeps the world from standing still. -/
def late (r : Registry) : List ThreadId := (r.mutators.filter r.delays).map (·.id)

/-- Stops the world: everybody but the initiator is asked to stop. -/
def claim (r : Registry) (initiator : Option ThreadId) : Registry :=
  { r with
    worldStopped := true
    initiator := initiator
    mutators := r.mutators.map fun m => if initiator = some m.id then m else m.requestStop }

/-- Lets the world go on; suspended threads stay requested. -/
def release (r : Registry) : Registry :=
  { r with
    worldStopped := false
    initiator := none
    mutators := r.mutators.map fun m => if m.suspendCount = 0 then m.withdrawRequest else m }

def held (r : Registry) (initiator : Option ThreadId) : Nat :=
  r.mutators.length - (if initiator.isSome then 1 else 0)

/-- The error of a pause for which some threads came too late. -/
def lateness (r : Registry) : Error :=
  .timeout ("threads " ++ Text.inspectList (r.late.map ThreadId.inspect) ++
    " did not reach a safepoint within " ++ Text.inspectMillis (r.timeout.getD 0))

end World

section Interrupts

def interrupt (r : Registry) (id : ThreadId) : Registry :=
  r.update id fun m => { m with interrupted := true }

def clearInterrupt (r : Registry) (id : ThreadId) : Registry :=
  r.update id fun m => { m with interrupted := false }

/-- Whether the interrupt flag of a thread is set. -/
def isInterrupted (r : Registry) (id : ThreadId) : Bool :=
  match r.get? id with
  | some m => m.interrupted
  | none => false

/-- Records the queue on which a thread waits. -/
def waitOn (r : Registry) (id : ThreadId) (queue : Option Nat) : Registry :=
  r.update id fun m => { m with blocker := queue }

end Interrupts

end Registry

end ManagedHeap
