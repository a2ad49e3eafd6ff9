import ManagedHeap.Machine.Collections

/-!
# Running finalizers

**Input.**  Batches that collections sent.

**Algorithm.**  The finalizer thread takes batches in order and runs their finalizers one after the
other.  A body is a list of actions; one that panics ends there and is reported.  When a body has
ended its finalizer gives back what it held, the object has finished with it, the root of the job is
given back, the outcome is counted, and only then is the job no longer pending.

**Results.**  One definition per section, for the thread and for those who wait for it.
-/

namespace ManagedHeap

namespace World

section Service

/-- Waits for the next message and begins with it. -/
def serve (w : World) (t e : Nat) : Option World :=
  match (w.engines[e]?).bind fun x => x.finalization.receive? with
  | none => none
  | some (message, rest) =>
      let received := w.modifyFinalization e fun _ => rest
      match message with
      | .run jobs => some (received.push t (jobs.map (Task.runJob e) ++ [.serve e]))
      | .shutdown runPending => some (received.push t [.drain e runPending])

/-- After the call to stop: runs or drops what is queued, then leaves. -/
def drain (w : World) (t e : Nat) (runPending : Bool) : World :=
  match (w.engines[e]?).bind fun x => x.finalization.receive? with
  | none => w.push t [.closeChannel e, .leaveService e, .announceExit e]
  | some (message, rest) =>
      let received := w.modifyFinalization e fun _ => rest
      match message with
      | .run jobs =>
          if runPending then received.push t (jobs.map (Task.runJob e) ++ [.drain e runPending])
          else received.push t [.discardJobs e jobs jobs.length, .drain e runPending]
      | .shutdown _ => received.push t [.drain e runPending]

def jobsOf : Message Finalizer → List (Job Finalizer)
  | .run jobs => jobs
  | .shutdown _ => []

/-- The receiving end goes away, and with it what is still queued. -/
def closeChannel (w : World) (t e : Nat) : World :=
  match w.engines[e]? with
  | none => w
  | some x =>
      (w.modifyFinalization e Finalization.close).push t
        [.dropJobs (x.finalization.channel.flatMap jobsOf)]

/-- Gives back what jobs hold, without running them. -/
def dropJobs (w : World) (t : Nat) : List (Job Finalizer) → World
  | [] => w
  | job :: rest => w.push t [.dropRoot job.object, .dropFinalizers [job.finalizer], .dropJobs rest]

/-- Drops jobs one after the other; their objects have finished with their finalizers. -/
def discardJobs (w : World) (t e : Nat) (jobs : List (Job Finalizer)) (count : Nat) : World :=
  match jobs with
  | [] => (w.modifyStatistics e (·.recordDiscarded count)).push t [.retire e count, .announce e]
  | job :: rest =>
      (w.modifyHeap job.object.heap (·.finishFinalization job.object.object)).push t
        [.dropJobs [job], .discardJobs e rest count]

end Service

section Bodies

/-- Begins with a finalizer unless all of them are held back. -/
def runJob (w : World) (t e : Nat) (job : Job Finalizer) : Option World :=
  if w.bodiesHeld then none else some (w.push t [.body e job job.finalizer.actions []])

def afterBody (e : Nat) (job : Job Finalizer) (panic : Option String) : List Task :=
  [.dropHeld job.finalizer.held, .finishObject job.object, .dropRoot job.object,
    .concludeJob e job.object.object panic, .retire e 1, .announce e]

def noteRun (w : World) (t : Nat) (job : Job Finalizer) (results : List ActionResult) : World :=
  match w.threads[t]? with
  | some x => w.note (.ran job.finalizer.label x.name results)
  | none => w

/-- The object of a job as its finalizer sees it. -/
def objectInfo (w : World) (r : Root) : ActionResult :=
  match w.engines[r.heap]? with
  | some x => .info r.object (x.heap.isLive r.object) (x.heap.isFinalizerPending r.object)
  | none => .info r.object false false

/-- Reads a field and binds or drops the root. -/
def readField (w : World) (r : Root) (index : Nat) (bind : Option String) : ActionResult × World :=
  match w.engines[r.heap]? with
  | none => (.object none, w)
  | some x =>
      match x.heap.getField r index with
      | .error e => (.failed e, w)
      | .ok (none, _) => (.object none, w)
      | .ok (some child, heap) =>
          (.object (some child.object), (w.modifyHeap r.heap fun _ => heap).bindObject? bind child)

def writeField (w : World) (r : Root) (index : Nat) (value : Option String) :
    ActionResult × World :=
  match w.engines[r.heap]? with
  | none => (.done, w)
  | some x =>
      match x.heap.setField r index (value.bind w.names.objects.get?) with
      | .error e => (.failed e, w)
      | .ok heap => (.done, w.modifyHeap r.heap fun _ => heap)

/-- The object of a reference as a new root. -/
def getReferent (w : World) (h : Handle) : Option Root × World :=
  match w.engines[h.heap]? with
  | none => (none, w)
  | some x =>
      let got := x.heap.getReferent h.position
      (got.1, w.modifyHeap h.heap fun _ => got.2)

def peekReferent (w : World) (reference : String) : ActionResult × World :=
  match w.names.references.get? reference with
  | none => (.object none, w)
  | some h =>
      match w.getReferent h with
      | (none, same) => (.object none, same)
      | (some r, held) => (.object (some r.object), held.dropRoot r)

def runBody (w : World) (t e : Nat) (job : Job Finalizer) (actions : List Action)
    (results : List ActionResult) : Option World :=
  match actions with
  | [] => some ((w.noteRun t job results).push t (afterBody e job none))
  | action :: rest =>
      let goOn (w : World) (more : List ActionResult) : World :=
        w.push t [.body e job rest (results ++ more)]
      -- a call on the engine, unless nobody holds that one any more
      let onEngine (call : List Task) : World :=
        match w.engines[e]? with
        | none => goOn w []
        | some x =>
            if x.handles = 0 then goOn w []
            else (w.retainEngine e).push t
              (call ++ [.releaseEngine e, .bodyResumes e job rest results])
      match action with
      | .info => some (goOn w [w.objectInfo job.object])
      | .getField index bind =>
          let read := w.readField job.object index bind
          some (goOn read.2 [read.1])
      | .setField index value =>
          let written := w.writeField job.object index value
          some (goOn written.2 [written.1])
      | .resurrect bind => some (goOn ((w.cloneRoot job.object).bindObject? bind job.object) [])
      | .getReferent reference =>
          let seen := w.peekReferent reference
          some (goOn seen.2 [seen.1])
      | .enqueue reference =>
          match w.names.references.get? reference with
          | none => some (goOn w [.flag none])
          | some h => some ((w.push t [.bodyResumes e job rest results]).beginEnqueue t h)
      | .collect => some (onEngine [.collectOpen e])
      | .allocate size fields bind =>
        some (onEngine [.allocate e ⟨size, fields, none⟩, .keepObject bind])
      | .gate gate => (w.passGate gate).map fun w => goOn w []
      | .panic message =>
          some ((w.noteRun t job results).push t
            (afterBody e job (some (message.getD "non-string panic payload"))))

def resultOf : Reply → ActionResult
  | .report r => .report r
  | .failed e => .failed e
  | .flag b => .flag (some b)
  | .object r => .object (r.map (·.object))
  | _ => .done

/-- Goes on with a body after a call; a call that panics ends the body. -/
def bodyResumes (w : World) (t e : Nat) (job : Job Finalizer) (actions : List Action)
    (results : List ActionResult) : World :=
  match w.replyOf t with
  | .fault f => w.push t [.body e job [.panic (some f.message)] results]
  | reply => w.push t [.body e job actions (results ++ [resultOf reply])]

/-- Keeps the object that a call has made under a name; without one it is dropped. -/
def keepObject (w : World) (t : Nat) (bind : Option String) : World :=
  match w.replyOf t with
  | .object (some r) => w.bindObject? bind r
  | _ => w

/-- Counts a finalizer that has run; a panic is reported first. -/
def concludeJob (w : World) (t e : Nat) (object : ObjectId) (panic : Option String) : World :=
  match panic with
  | none => w.modifyStatistics e Statistics.recordCompleted
  | some message =>
      let warned :=
        w.report [⟨.warn, "finalizer for " ++ object.display ++ " panicked: " ++ message⟩]
      (warned.log e (.finalizerPanicked object.display message)).push t
        [.dispatch e (.finalizerPanicked object message), .countPanic e]

end Bodies

section Waiting

/-- Waits for all finalizers, if there are any and somebody runs them. -/
def runFinalization (w : World) (t e ms : Nat) : World :=
  match w.engines[e]? with
  | none => w
  | some x =>
      if x.finalization.pending = 0 then w.answer t (.flag true)
      else if !x.finalization.running then w.answer t (.flag false)
      else w.push t [.blocking .any (.awaitDrain e ms)]

def awaitDrain (w : World) (t e ms : Nat) : Option World :=
  match w.engines[e]? with
  | none => some w
  | some x =>
      if x.finalization.awaitingDrain.contains t && !w.isExpired t then none
      else
        let awake := w.modifyFinalization e fun f =>
            { f with awaitingDrain := f.awaitingDrain.filter (· != t) }
        if x.finalization.pending = 0 then some (awake.answer t (.flag true))
        else if w.isExpired t || decide (ms = 0) then some (awake.answer t (.flag false))
        else
          some ((awake.modifyFinalization e fun f =>
              { f with awaitingDrain := f.awaitingDrain ++ [t] }).push t [.awaitDrain e ms])

end Waiting

end World

end ManagedHeap
