import ManagedHeap.Machine.Safepoints
import ManagedHeap.Machine.References
import ManagedHeap.Numeral.Decimal
import ManagedHeap.Object.Footprint

/-!
# Collections and allocation

**Input.**  A call to collect, or an allocation that finds no room.

**Algorithm.**  Collections of one engine follow each other: the collector's lock is taken inside a
blocking region that puts off suspensions, so that a waiting thread never delays the collection
before it.  A cycle announces itself, stops the world, pauses, lets the world go, and only then
delivers references and finalizers.  An allocation tries, then collects, then collects in an
emergency, and tries again each time.

**Results.**  One definition per section.  All times are zero.
-/

namespace ManagedHeap

namespace World

section Cycle

def collectTasks (e : Nat) (reason : Reason) : List Task :=
  [.blocking .pause (.lockCollector e), .beginCycle e reason, .unlockCollector e, .checkpoint e]

/-- A collection that an engine refuses once it is stopped. -/
def collectOpen (w : World) (t e : Nat) : World :=
  match w.engines[e]? with
  | none => w
  | some x =>
      if x.state = .stopped then w.answer t (.failed .shutDown)
        else w.push t (collectTasks e .explicit)

/-- Takes the collector's lock once it is free. -/
def lockCollector (w : World) (t e : Nat) : Option World :=
  match w.engines[e]? with
  | none => some w
  | some x =>
      if x.collector.owner.isSome then none
      else some (w.modifyCollector e fun c => { c with owner := some t })

def unlockCollector (w : World) (e : Nat) : World :=
  w.modifyCollector e fun c => { c with owner := none }

def setPhase (w : World) (e : Nat) (p : Phase) : World :=
  w.modifyCollector e fun c => { c with phase := p }

/-- Announces a cycle and asks everybody to stop. -/
def beginCycle (w : World) (t e : Nat) (reason : Reason) : World :=
  match w.engines[e]? with
  | none => w
  | some x =>
      let cycle := x.collector.cycles + 1
      (w.log e (.cycleStart cycle reason.display)).push t [.dispatch e (.gcStarted cycle),
        .setPhase e .stopping, .registry e (.stopWorld (w.currentId t e)), .pause e cycle reason]

def policyRecord (cycle : Nat) (p : PauseOutcome Finalizer) : LogRecord :=
  ⟨.trace, "cycle " ++ toString cycle ++ ": strong utilization " ++ Numeral.fixed 3 p.utilization ++
    ", clear all soft references: " ++ Text.inspectBool p.clearAll⟩

/-- The report of a cycle as far as the pause knows it. -/
def pauseReport (cycle : Nat) (reason : Reason) (threads : Nat) (p : PauseOutcome Finalizer) :
    Report where
  cycle := cycle
  reason := reason
  threadsStopped := threads
  markedObjects := p.markedObjects
  reclaimedObjects := p.reclaimedObjects
  reclaimedBytes := p.reclaimedBytes
  softCleared := p.softCleared
  weakCleared := p.weakCleared
  phantomCleared := p.phantomCleared

/-- The pause of a cycle, if the world was stopped; otherwise the cycle is off. -/
def pauseWorld (w : World) (t e cycle : Nat) (reason : Reason) : World :=
  match w.replyOf t, w.engines[e]? with
  | .count threads, some x =>
      let outcome := x.heap.pause x.settings reason
      let logged :=
        (w.log e (.safepointReached cycle threads 0)).report [policyRecord cycle outcome]
      ((logged.modifyHeap e fun _ => outcome.heap).setPhase e .sweeping).push t [.registry e
        .releaseWorld, .dropFinalizers (outcome.discarded.map Prod.snd), .setPhase e .enqueuing,
        .enqueuePending e outcome.pending outcome.jobs (pauseReport cycle reason threads outcome)]
  | _, _ => w.setPhase e .idle

end Cycle

section Delivery

/-- Gives back the roots that a finalizer owned, one after the other. -/
def dropHeld (w : World) (t : Nat) : List Root → World
  | [] => w
  | r :: rest => (w.dropRoot r).push t [.dropHeld rest]

/-- Drops finalizers without running them, one after the other. -/
def dropFinalizers (w : World) (t : Nat) : List Finalizer → World
  | [] => w
  | f :: rest => (w.note (.discarded f.label)).push t [.dropHeld f.held, .dropFinalizers rest]

/-- Claims the next pending reference for its queue; one without a queue is done with. -/
def enqueuePending (w : World) (t e : Nat) (pending : List Nat) (jobs : List (Job Finalizer))
    (r : Report) : World :=
  match pending with
  | [] => w.push t [.schedule e jobs r]
  | i :: rest =>
      let h : Handle := ⟨e, i⟩
      match (w.reference? h).bind (·.queue) with
      | none =>
          ((w.exchangeStage h .pending .inactive).2.modifyReference h Heap.release).push t
            [.enqueuePending e rest jobs r]
      | some q =>
          match w.exchangeStage h .pending .enqueued with
          | (true, claimed) =>
              (claimed.modifyReference h Heap.release).push t [.pushQueue q h, .enqueuePending e
                rest jobs { r with referencesEnqueued := r.referencesEnqueued + 1 }]
          | (false, same) =>
              (same.modifyReference h Heap.release).push t [.enqueuePending e rest jobs r]

def schedule (w : World) (t e : Nat) (jobs : List (Job Finalizer)) (r : Report) : World :=
  match jobs, w.engines[e]? with
  | [], _ => w.push t [.finishCycle e r]
  | _, none => w
  | jobs, some x =>
      if x.finalization.accepts then w.push t [.enrol e jobs r]
      else
        let refused : LogRecord := ⟨.debug, "discarding " ++ toString jobs.length ++
              " finalizers, finalizer thread not accepting"⟩
        ((w.report [refused]).modifyFinalization e (·.enrol jobs.length)).push t
          [.discardJobs e jobs jobs.length, .finishCycle e r]

def enrol (w : World) (t e : Nat) (jobs : List (Job Finalizer)) (r : Report) : World :=
  (w.modifyFinalization e (·.enrol jobs.length)).push t [.send e jobs r]

/-- Sends accepted finalizers to their thread, or drops them if it is gone. -/
def send (w : World) (t e : Nat) (jobs : List (Job Finalizer)) (r : Report) : World :=
  match (w.engines[e]?).bind fun x => x.finalization.send (.run jobs) with
  | some sent =>
      ((w.modifyFinalization e fun _ =>
          sent).modifyStatistics e (·.recordScheduled jobs.length)).push t
        [.finishCycle e { r with finalizersScheduled := jobs.length }]
  | none => w.push t [.discardJobs e jobs jobs.length, .finishCycle e r]

def finishCycle (w : World) (t e : Nat) (r : Report) : World :=
  match w.engines[e]? with
  | none => w
  | some x =>
      let counted := w.modifyCollector e fun c => { c with cycles := r.cycle }
      let recorded :=
        if x.settings.statsEnabled then counted.modifyStatistics e (·.recordCollection r)
          else counted
      let cleared := recorded.log e (.referenceStats r.cycle r.softCleared r.weakCleared
            r.phantomCleared r.referencesEnqueued)
      let scheduled :=
        if 0 < r.finalizersScheduled then cleared.log e
          (.finalizersScheduled r.cycle r.finalizersScheduled)
        else cleared
      let ended :=
        scheduled.log e
          (.cycleEnd r.cycle (Numeral.Format.double.zero false) r.reclaimedObjects r.reclaimedBytes)
      let shown :=
        ended.log e (.heapStats x.heap.space.usedBytes x.heap.space.capacity x.heap.utilization)
      shown.push t
        [.dispatch e (.gcFinished r.cycle r.reclaimedObjects r.reclaimedBytes), .setPhase e .idle,
          .reply (.report r)]

end Delivery

section Allocation

/-- Whether the heap of an engine has so many bytes left. -/
def hasRoom (w : World) (e size : Nat) : Bool :=
  match w.engines[e]? with
  | some x => x.heap.space.canFit size
  | none => false

/-- Stores an object that fits; the value is its root. -/
def store (w : World) (t e : Nat) (r : Request) (size : Nat) : World :=
  let root := (w.engines[e]?).map fun x => x.heap.nextRoot
  (w.modifyHeap e fun h => h.store size r.fields r.finalizer).answer t (.object root)

/-- An allocation comes to nothing: its finalizer is dropped. -/
def refuseAllocation (w : World) (t : Nat) (r : Request) (reply : Reply) : World :=
  (w.answer t reply).push t [.dropFinalizers r.finalizer.toList]

/-- The error of an engine that has no room. -/
def exhaustion (w : World) (e size : Nat) : Error :=
  .outOfMemory size (match w.engines[e]? with
    | some x => x.heap.space.available
    | none => 0)

/-- Begins to allocate; a stopped engine refuses. -/
def allocate (w : World) (t e : Nat) (r : Request) : World :=
  match w.engines[e]? with
  | none => w
  | some x =>
      if x.state = .stopped then w.refuseAllocation t r (.failed .shutDown)
      else w.push t [.checkpoint e, .attempt e r]

/-- Allocates if there is room, else collects. -/
def attempt (w : World) (t e : Nat) (r : Request) : World :=
  match w.engines[e]?, Footprint.footprint r.size r.fields with
  | none, _ => w
  | some _, .error f => w.refuseAllocation t r (.fault f)
  | some x, .ok size =>
      if x.heap.space.capacity < size then w.refuseAllocation t r (.failed (w.exhaustion e size))
      else if x.heap.space.canFit size then w.store t e r size
      else
        (w.log e (.allocationFailure size x.heap.space.usedBytes)).push t
          (collectTasks e (.allocationFailure size) ++ [.retry e r size false])

/-- Tries again after a collection; after the first one an emergency is left. -/
def retry (w : World) (t e : Nat) (r : Request) (size : Nat) (final : Bool) : World :=
  match w.replyOf t with
  | .failed err => w.refuseAllocation t r (.failed err)
  | _ =>
      if w.hasRoom e size then w.store t e r size
      else if final then w.refuseAllocation t r (.failed (w.exhaustion e size))
      else w.push t (collectTasks e (.emergency size) ++ [.retry e r size true])

end Allocation

end World

end ManagedHeap
