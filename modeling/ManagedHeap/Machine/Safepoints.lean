import ManagedHeap.Machine.World

/-!
# Safepoints, regions and agents

The tasks with which a thread attaches, polls, blocks, suspends others and tells agents of it.
-/

namespace ManagedHeap

namespace World

section Registry

/-- Performs one section of a call on a registry. -/
def runOperation (w : World) (t e : Nat) (op : Operation) : Option World :=
  match w.engines[e]? with
  | none => some w
  | some x =>
      match x.registry.step t (w.isExpired t) op with
      | none => none
      | some (registry, progress) =>
          let after := w.modifyRegistry e fun _ => registry
          match progress with
          | .finished => some after
          | .answered r => some (after.answer t r)
          | .continues op => some (after.push t [.registry e op])

/-- The record that an engine keeps of a thread attached to it. -/
def mutator? (w : World) (t e : Nat) : Option Mutator :=
  match w.currentId t e, w.engines[e]? with
  | some id, some x => x.registry.get? id
  | _, _ => none

/-- Polls, if the thread is attached to the engine and its flag is up. -/
def checkpoint (w : World) (t e : Nat) : World :=
  match w.mutator? t e with
  | some m => if m.pollRequested then w.push t [.registry e (.poll m.id)] else w
  | none => w

end Registry

section Regions

/-- Sets whether a thread is inside a blocking region. -/
def setRegion (w : World) (t : Nat) (inside : Bool) : World :=
  w.modifyThread t fun x =>
    { x with attachment := x.attachment.map fun a => { a with inRegion := inside } }

/-- Whether a thread that begins to block now enters a region: it is attached and not inside one. -/
def enters (w : World) (t : Nat) : Option Attachment :=
  match w.attachmentOf t with
  | some a => if a.inRegion then none else some a
  | none => none

/-- Runs a task as a blocking region; inside a region it is just run. -/
def runBlocking (w : World) (t : Nat) (hold : Hold) (body : Task) : World :=
  match w.enters t with
  | some a =>
      (w.setRegion t true).push t [.registry a.engine (.enterBlocking a.id), body,
        .registry a.engine (.leaveBlocking a.id hold), .endRegion]
  | none => w.push t [body]

end Regions

section Attachment

def attach (w : World) (t e : Nat) (name : String) (foreign : Bool) : World :=
  match w.attachmentOf t with
  | some a => w.answer t (.failed (.threadAlreadyAttached a.id))
  | none => w.push t [.registry e (.attach name), .adopt e foreign]

/-- The thread takes the number that the registry gave it; joining during a pause it comes in at
once. -/
def adopt (w : World) (t e : Nat) (foreign : Bool) : World :=
  match w.replyOf t with
  | .count id =>
      (w.modifyThread t fun x => { x with attachment := some ⟨e, id, foreign, false⟩ }).push t
        [.checkpoint e]
  | _ => w

/-- Begins to detach a thread whose attachment was made on this side of the foreign boundary, or on
the other. -/
def detach (w : World) (t : Nat) (foreign : Bool) : World :=
  match w.attachmentOf t with
  | some a =>
      if a.foreign = foreign then
        (w.answer t (.flag true)).push t [.registry a.engine (.detach a.id), .forget]
      else w.answer t (.flag false)
  | none => w.answer t (.flag false)

def forget (w : World) (t : Nat) : World := w.modifyThread t fun x => { x with attachment := none }

end Attachment

section Agents

def dispatch (w : World) (t e : Nat) (n : Notice) : World :=
  match w.engines[e]? with
  | some x => w.push t [.deliver e n (x.agents.recipients n)]
  | none => w

def deliver (w : World) (t e : Nat) (n : Notice) : List (Agent Listener) → World
  | [] => w
  | a :: rest =>
      let heard :=
        if a.body.listens then
          { w with output := { w.output with notices := (a.body.label, n) :: w.output.notices } }
        else w
      let waits :=
        match a.body.gate with
        | some (start, gate) => if n.inspect.startsWith start then [Task.gate gate] else []
        | none => []
      heard.push t (waits ++ [.delivered e, .deliver e n rest])

def delivered (w : World) (e : Nat) : World :=
  w.modifyEngine e fun x => { x with agents := x.agents.countDelivery }

def passGate (w : World) (gate : String) : Option World :=
  if w.openGates.contains gate then some w else none

end Agents

section Suspension

def suspendTasks (e : Nat) (target : ThreadId) : List Task :=
  [.registry e (.requestSuspend target), .suspended e target]

def resumeTasks (e : Nat) (target : ThreadId) : List Task :=
  [.registry e (.resume target), .resumed e target]

/-- A suspension was counted: it is logged and told to agents, and a thread that suspended itself
comes in. -/
def suspended (w : World) (t e : Nat) (target : ThreadId) : World :=
  match w.replyOf t with
  | .count n =>
      (w.log e (.threadSuspended (ThreadId.display target) n)).push t
        [.dispatch e (.threadSuspended target n), .selfPoll e target]
  | _ => w

def selfPoll (w : World) (t e : Nat) (target : ThreadId) : World :=
  if w.currentId t e = some target then w.checkpoint t e else w

/-- A resumption was counted, unless there was nothing to resume. -/
def resumed (w : World) (t e : Nat) (target : ThreadId) : World :=
  match w.replyOf t with
  | .change none => w.answer t (.count 0)
  | .change (some n) =>
      ((w.answer t (.count n)).log e (.threadResumed (ThreadId.display target) n)).push t
        [.dispatch e (.threadResumed target n)]
  | _ => w

/-- Counts several suspensions, one after the other. -/
def repeatSuspend (w : World) (t e : Nat) (target : ThreadId) : Nat → World
  | 0 => w
  | n + 1 => w.push t [.registry e (.requestSuspend target), .repeatSuspend e target n]

def interrupt (w : World) (t e : Nat) (target : ThreadId) : World :=
  match w.engines[e]? with
  | none => w
  | some x =>
      match x.registry.find target with
      | .error err => w.answer t (.failed err)
      | .ok _ =>
          ((w.modifyRegistry e (·.interrupt target)).answer t .unit).push t [.wakeBlocked e target]

/-- Wakes an interrupted thread if it waits on a queue. -/
def wakeBlocked (w : World) (t e : Nat) (target : ThreadId) : World :=
  match (w.engines[e]?).bind fun x => (x.registry.get? target).bind (·.blocker) with
  | some q => w.push t [.wakeQueue q]
  | none => w

end Suspension

end World

end ManagedHeap
