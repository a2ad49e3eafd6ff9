import ManagedHeap.Object.Identity

/-!
# Agents

**Input.**  Observers that register with capabilities, and notices of what a runtime does.

**Algorithm.**  A notice goes to the agents that are registered when its dispatch begins and whose
recorded capabilities allow its kind, in the order of registration.  An agent may change the
registry while it is called; the list of recipients is fixed by then.

**Results.**  `Agents.recipients`, `Agents.countDelivery` and their composition `Agents.dispatch`.
-/

namespace ManagedHeap

/-- What an agent may see and do. -/
structure Capabilities where
  gcEvents : Bool := false
  threadEvents : Bool := false
  canSuspend : Bool := false
  deriving DecidableEq, Repr

def Capabilities.all : Capabilities := ⟨true, true, true⟩

def Capabilities.inspect (c : Capabilities) : String :=
  Text.inspectRecord "AgentCapabilities"
    [("gc_events", Text.inspectBool c.gcEvents), ("thread_events", Text.inspectBool c.threadEvents),
      ("can_suspend", Text.inspectBool c.canSuspend)]

/-- What agents are told. -/
inductive Notice where
  | gcStarted (cycle : Nat)
  | gcFinished (cycle reclaimedObjects reclaimedBytes : Nat)
  | threadSuspended (thread : ThreadId) (suspendCount : Nat)
  | threadResumed (thread : ThreadId) (suspendCount : Nat)
  | finalizerPanicked (object : ObjectId) (message : String)
  deriving DecidableEq, Repr

def Notice.inspect : Notice → String
  | .gcStarted cycle => Text.inspectRecord "GcStarted" [("cycle", toString cycle)]
  | .gcFinished cycle objects bytes =>
      Text.inspectRecord "GcFinished" [("cycle", toString cycle),
        ("reclaimed_objects", toString objects), ("reclaimed_bytes", toString bytes)]
  | .threadSuspended thread count =>
      Text.inspectRecord "ThreadSuspended"
        [("thread", ThreadId.inspect thread), ("suspend_count", toString count)]
  | .threadResumed thread count =>
      Text.inspectRecord "ThreadResumed"
        [("thread", ThreadId.inspect thread), ("suspend_count", toString count)]
  | .finalizerPanicked object message =>
      Text.inspectRecord "FinalizerPanicked"
        [("object", object.inspect), ("message", Text.inspectString message)]

/-- Whether the capabilities allow a notice. -/
def Capabilities.allow (c : Capabilities) : Notice → Bool
  | .gcStarted .. => c.gcEvents
  | .gcFinished .. => c.gcEvents
  | .finalizerPanicked .. => c.gcEvents
  | .threadSuspended .. => c.threadEvents
  | .threadResumed .. => c.threadEvents

/-- A registered agent; `body` is whatever its callback needs. -/
structure Agent (β : Type) where
  id : Nat
  capabilities : Capabilities
  body : β
  deriving DecidableEq, Repr

/-- The registered agents in the order of registration. -/
structure Agents (β : Type) where
  registered : List (Agent β) := []
  nextId : Nat := 1
  /-- Deliveries made so far, modulo `2 ^ 64` in a run that long. -/
  delivered : Nat := 0
  deriving DecidableEq, Repr

namespace Agents

variable {β : Type}

/-- Registers an agent under a number that was never used before. -/
def register (a : Agents β) (capabilities : Capabilities) (body : β) : Nat × Agents β :=
  (a.nextId, { a with
    registered := a.registered ++ [⟨a.nextId, capabilities, body⟩], nextId := a.nextId + 1 })

/-- Removes an agent; the answer says whether it was registered. -/
def unregister (a : Agents β) (id : Nat) : Bool × Agents β :=
  (a.registered.any (·.id == id), { a with registered := a.registered.filter (·.id != id) })

/-- The agents to which a notice goes if its dispatch begins now. -/
def recipients (a : Agents β) (n : Notice) : List (Agent β) :=
  a.registered.filter (·.capabilities.allow n)

def countDelivery (a : Agents β) : Agents β := { a with delivered := a.delivered + 1 }

/-- Delivers a notice to its recipients; `call` is what an agent does to the registry and to a state
of its own. -/
def dispatch {σ : Type} (call : Agent β → Notice → Agents β × σ → Agents β × σ) (n : Notice)
    (start : Agents β × σ) : Agents β × σ :=
  (start.1.recipients n).foldl
    (fun s agent => ((call agent n s).1.countDelivery, (call agent n s).2)) start

end Agents

/-- The record of a registration, shown in the log. -/
def registrationText (name : String) (id : Nat) (c : Capabilities) : String :=
  "agent '" ++ name ++ "' registered as #" ++ toString id ++ " with " ++ c.inspect

end ManagedHeap
