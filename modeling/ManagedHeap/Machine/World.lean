import ManagedHeap.Machine.Task

/-!
# Worlds

**Input.**  Threads with their tasks, and everything they share.

**Results.**  The type `World` and the ways in which a task changes one part of it.  Engines, queues
and threads are known by their positions, which never change; the heap of an engine has the position
of its engine.
-/

namespace ManagedHeap

/-- The runtime that a thread is attached to. -/
structure Attachment where
  engine : Nat
  id : ThreadId
  /-- Whether the attachment was made across the foreign boundary. -/
  foreign : Bool
  /-- Whether the thread is inside a blocking region. -/
  inRegion : Bool := false
  deriving DecidableEq, Repr

/-- A stretch of a program that a thread has entered and not left. -/
inductive Scope where
  /-- A blocking region; one inside another has nothing to leave. -/
  | blocking (entered : Bool)
  /-- The world of an engine stands still. -/
  | world (engine : Nat)
  deriving DecidableEq, Repr

/-- A thread. -/
structure Thread where
  name : String
  attachment : Option Attachment := none
  scopes : List Scope := []
  tasks : List Task := []
  /-- The value of the call that came to an end last. -/
  reply : Reply := .unit
  /-- Whether the time of the wait that the thread is in has run out. -/
  expired : Bool := false
  /-- Number of the instruction that the thread is in. -/
  instruction : Option Nat := none
  /-- Whether the time limit of that instruction can run out. -/
  timed : Bool := false

abbrev Runtime := Engine Finalizer Listener

/-- Everything that the threads of a program share, and the threads. -/
structure World where
  engines : Array Runtime := #[]
  queues : Array Queue := #[]
  threads : Array Thread := #[]
  /-- Names of the gates that are open. -/
  openGates : List String := []
  names : Names := {}
  /-- The handles on agents that are held, one by each name and one by each call in progress. -/
  agentHandles : List AgentHandle := []
  /-- Number of the next reference. -/
  nextReference : Nat := 1
  /-- Number of the first reference that the program made under a name of its own, which counts from
  there. -/
  firstReference : Option Nat := none
  /-- Whether finalizers have to wait before their first action. -/
  bodiesHeld : Bool := false
  output : Output := {}

namespace World

section Threads

def modifyThread (w : World) (t : Nat) (f : Thread → Thread) : World :=
  { w with threads := w.threads.modify t f }

/-- Puts tasks in front of those that a thread has. -/
def push (w : World) (t : Nat) (tasks : List Task) : World :=
  w.modifyThread t fun x => { x with tasks := tasks ++ x.tasks }

/-- The value of the call that a thread ended last. -/
def replyOf (w : World) (t : Nat) : Reply :=
  match w.threads[t]? with
  | some x => x.reply
  | none => .unit

def answer (w : World) (t : Nat) (r : Reply) : World :=
  w.modifyThread t fun x => { x with reply := r }

def attachmentOf (w : World) (t : Nat) : Option Attachment := (w.threads[t]?).bind (·.attachment)

/-- The number of a thread in an engine, if it is attached to that one. -/
def currentId (w : World) (t engine : Nat) : Option ThreadId :=
  match w.attachmentOf t with
  | some a => if a.engine = engine then some a.id else none
  | none => none

/-- Whether the time of a thread's wait has run out. -/
def isExpired (w : World) (t : Nat) : Bool :=
  match w.threads[t]? with
  | some x => x.expired
  | none => false

/-- Starts a thread; the answer is its position. -/
def spawn (w : World) (x : Thread) : Nat × World :=
  (w.threads.size, { w with threads := w.threads.push x })

end Threads

section Engines

def modifyEngine (w : World) (e : Nat) (f : Runtime → Runtime) : World :=
  { w with engines := w.engines.modify e f }

def modifyHeap (w : World) (e : Nat) (f : Heap Finalizer → Heap Finalizer) : World :=
  w.modifyEngine e fun x => { x with heap := f x.heap }

def modifyRegistry (w : World) (e : Nat) (f : Registry → Registry) : World :=
  w.modifyEngine e fun x => { x with registry := f x.registry }

def modifyFinalization (w : World) (e : Nat) (f : Finalization Finalizer → Finalization Finalizer) :
    World :=
  w.modifyEngine e fun x => { x with finalization := f x.finalization }

def modifyCollector (w : World) (e : Nat) (f : Collector → Collector) : World :=
  w.modifyEngine e fun x => { x with collector := f x.collector }

def modifyStatistics (w : World) (e : Nat) (f : Statistics → Statistics) : World :=
  w.modifyEngine e fun x => { x with statistics := f x.statistics }

def modifyQueue (w : World) (q : Nat) (f : Queue → Queue) : World :=
  { w with queues := w.queues.modify q f }

end Engines

section Outputs

def report (w : World) (records : List LogRecord) : World :=
  { w with output := { w.output with records := records.reverse ++ w.output.records } }

def emit (w : World) (e : Emission) : World :=
  { w with output :=
    { w.output with
      records := e.records.reverse ++ w.output.records
      printed := e.printed.reverse ++ w.output.printed } }

/-- Logs an event in the journal of an engine. -/
def log (w : World) (e : Nat) (event : Event) : World :=
  match w.engines[e]? with
  | none => w
  | some x =>
      let logged := x.journal.log event
      (w.modifyEngine e fun x => { x with journal := logged.1 }).emit logged.2

def note (w : World) (n : FinalizerNote) : World :=
  { w with output := { w.output with finalizers := n :: w.output.finalizers } }

/-- Ends the instruction that a thread is in. -/
def complete (w : World) (t : Nat) (a : Answer) : World :=
  match (w.threads[t]?).bind (·.instruction) with
  | none => w
  | some n =>
      { w.modifyThread t fun x => { x with instruction := none } with
        output := { w.output with done := (n, a) :: w.output.done } }

end Outputs

section Roots

def dropRoot (w : World) (r : Root) : World := w.modifyHeap r.heap (·.unpin r.object)

def cloneRoot (w : World) (r : Root) : World := w.modifyHeap r.heap (·.pin r.object)

/-- Binds an object to a name; the root that the name had is given back. -/
def bindObject (w : World) (name : String) (r : Root) : World :=
  let old := w.names.objects.get? name
  let bound := { w with names :=
    { w.names with
      objects := w.names.objects.insert name r
      lastObjects := w.names.lastObjects.insert name r.object } }
  match old with
  | some o => bound.dropRoot o
  | none => bound

/-- Binds an object to a name, or gives its root back. -/
def bindObject? (w : World) (name : Option String) (r : Root) : World :=
  match name with
  | some n => w.bindObject n r
  | none => w.dropRoot r

def modifyReference (w : World) (h : Handle) (f : Heap Finalizer → Nat → Heap Finalizer) : World :=
  w.modifyHeap h.heap fun x => f x h.position

def reference? (w : World) (h : Handle) : Option Reference :=
  (w.engines[h.heap]?).bind fun x => x.heap.references[h.position]?

/-- The number under which a reference is shown: the first one that the program named is 1. -/
def numberShown (w : World) (id : Nat) : Nat := id + 1 - w.firstReference.getD 1

/-- Binds a reference to a name; the handle that the name had is given back. -/
def bindReference (w : World) (name : String) (h : Handle) : World :=
  let old := w.names.references.get? name
  let bound := { w with names := { w.names with references := w.names.references.insert name h } }
  match old with
  | some o => bound.modifyReference o Heap.release
  | none => bound

/-- The roots of the named objects, each cloned; names without an object are left out. -/
def cloneNamed (w : World) (labels : List String) : List Root × World :=
  let roots := labels.filterMap fun l => w.names.objects.get? l
  (roots, roots.foldl cloneRoot w)

/-- Makes the finalizer that a program describes. -/
def makeFinalizer (w : World) (s : FinalizerSpec) : Finalizer × World :=
  let cloned := w.cloneNamed s.holds
  (⟨s.label, s.actions, cloned.1⟩, cloned.2)

/-- Makes the request that a program describes. -/
def makeRequest (w : World) (s : ObjectSpec) : Request × World :=
  match s.finalizer with
  | none => (⟨s.size, s.fields, none⟩, w)
  | some f =>
      let made := w.makeFinalizer f
      (⟨s.size, s.fields, some made.1⟩, made.2)

end Roots

section Handles

def retainEngine (w : World) (e : Nat) : World :=
  w.modifyEngine e fun x => { x with handles := x.handles + 1 }

def retainAgent (w : World) (a : AgentHandle) : World :=
  { w with agentHandles := a :: w.agentHandles }

/-- Gives back a handle on an agent; the last one unregisters it. -/
def releaseAgent (w : World) (a : AgentHandle) : World :=
  let held := w.agentHandles.erase a
  let released := { w with agentHandles := held }
  if held.contains a then released
  else released.modifyEngine a.engine fun x => { x with agents := (x.agents.unregister a.id).2 }

end Handles

end World

end ManagedHeap
