import ManagedHeap.Machine.Program

/-!
# Steps

**Input.**  A world and one of its threads.

**Algorithm.**  The thread performs its next task.

**Results.**  `World.step`; `none` says that the thread cannot move.  Everything that threads can do
to a world is a sequence of such steps and of waits that run out.
-/

namespace ManagedHeap

namespace World

/-- Performs a task that its thread has taken off its stack. -/
def runTask (w : World) (t : Nat) : Task → Option World
  | .registry e op => w.runOperation t e op
  | .checkpoint e => some (w.checkpoint t e)
  | .blocking hold body => some (w.runBlocking t hold body)
  | .endRegion => some (w.setRegion t false)
  | .adopt e foreign => some (w.adopt t e foreign)
  | .forget => some (w.forget t)
  | .dispatch e n => some (w.dispatch t e n)
  | .deliver e n recipients => some (w.deliver t e n recipients)
  | .delivered e => some (w.delivered e)
  | .gate name => w.passGate name
  | .suspended e target => some (w.suspended t e target)
  | .selfPoll e target => some (w.selfPoll t e target)
  | .resumed e target => some (w.resumed t e target)
  | .repeatSuspend e target times => some (w.repeatSuspend t e target times)
  | .interrupt e target => some (w.interrupt t e target)
  | .wakeBlocked e target => some (w.wakeBlocked t e target)
  | .wakeQueue q => some (w.modifyQueue q Queue.wakeAll)
  | .lockCollector e => w.lockCollector t e
  | .unlockCollector e => some (w.unlockCollector e)
  | .beginCycle e reason => some (w.beginCycle t e reason)
  | .setPhase e p => some (w.setPhase e p)
  | .pause e cycle reason => some (w.pauseWorld t e cycle reason)
  | .dropFinalizers fs => some (w.dropFinalizers t fs)
  | .enqueuePending e pending jobs r => some (w.enqueuePending t e pending jobs r)
  | .schedule e jobs r => some (w.schedule t e jobs r)
  | .enrol e jobs r => some (w.enrol t e jobs r)
  | .send e jobs r => some (w.send t e jobs r)
  | .finishCycle e r => some (w.finishCycle t e r)
  | .reply r => some (w.answer t r)
  | .allocate e r => some (w.allocate t e r)
  | .attempt e r => some (w.attempt t e r)
  | .retry e r size final => some (w.retry t e r size final)
  | .clearReferent h => some (w.clearReferent t h)
  | .claimActive h q => some (w.claimActive t h q)
  | .claimPending h q => some (w.claimPending t h q)
  | .pushQueue q h => some (w.pushQueue q h)
  | .releaseReference h => some (w.modifyReference h Heap.release)
  | .pollQueue q => some (w.pollQueue t q)
  | .waitOnQueue q ms => some (w.push t [.setBlocker (some q), .awaitEntry q ms, .setBlocker none])
  | .setBlocker q => some (w.setBlocker t q)
  | .awaitEntry q ms => w.awaitEntry t q ms
  | .finishRemoval q h => some (w.finishRemoval t q h)
  | .serve e => w.serve t e
  | .drain e runPending => some (w.drain t e runPending)
  | .closeChannel e => some (w.closeChannel t e)
  | .leaveService e => some (w.modifyFinalization e Finalization.leave)
  | .announceExit e => some (w.modifyFinalization e Finalization.announceExit)
  | .runJob e job => w.runJob t e job
  | .body e job actions results => w.runBody t e job actions results
  | .bodyResumes e job actions results => some (w.bodyResumes t e job actions results)
  | .keepObject bind => some (w.keepObject t bind)
  | .dropHeld roots => some (w.dropHeld t roots)
  | .finishObject r => some (w.modifyHeap r.heap (·.finishFinalization r.object))
  | .dropRoot r => some (w.dropRoot r)
  | .concludeJob e object panic => some (w.concludeJob t e object panic)
  | .countPanic e => some (w.modifyStatistics e Statistics.recordPanicked)
  | .discardJobs e jobs count => some (w.discardJobs t e jobs count)
  | .dropJobs jobs => some (w.dropJobs t jobs)
  | .retire e count => some (w.modifyFinalization e (·.retire count))
  | .announce e => some (w.modifyFinalization e Finalization.announce)
  | .runFinalization e ms => some (w.runFinalization t e ms)
  | .awaitDrain e ms => w.awaitDrain t e ms
  | .collect e reason => some (w.push t (collectTasks e reason))
  | .collectOpen e => some (w.collectOpen t e)
  | .stopEngine e => some (w.stopEngine t e)
  | .shutdownCollected _ => some (w.shutdownCollected t)
  | .refuseWork e => some (w.refuseWork t e)
  | .claimReceiver e => some (w.claimReceiver t e)
  | .drainUnstarted e => some (w.drainUnstarted t e)
  | .awaitExit e => w.awaitExit t e
  | .stopped e => some (w.stopped t e)
  | .releaseEngine e => some (w.releaseEngine t e)
  | .releaseAgent a => some (w.releaseAgent a)
  | .perform i => some (w.perform t i)
  | .garbage e s index remaining => some (w.garbage t e s index remaining)
  | .garbageNext e s index remaining => some (w.garbageNext t e s index remaining)
  | .chain e size index remaining previous bind =>
    some (w.chain t e size index remaining previous bind)
  | .chainNext e size index remaining previous bind =>
    some (w.chainNext t e size index remaining previous bind)
  | .finish f => some (w.finish t f)
  | .conclude e f => some (w.conclude t e f)

/-- One step of a thread; `none` if it has nothing to do or has to wait. -/
def step (w : World) (t : Nat) : Option World :=
  match w.threads[t]? with
  | none => none
  | some x =>
      match x.tasks with
      | [] => none
      | task :: rest =>
          ((w.modifyThread t fun x => { x with tasks := rest }).runTask t task).map fun after =>
            after.modifyThread t fun x => { x with expired := false }

def mayWait : Task → Bool
  | .registry .. => true
  | .gate _ => true
  | .lockCollector _ => true
  | .awaitEntry .. => true
  | .serve _ => true
  | .runJob .. => true
  | .body .. => true
  | .awaitDrain .. => true
  | .awaitExit _ => true
  | _ => false

/-- A task that never waits is performed in every world. -/
theorem runTask_isSome (w : World) (t : Nat) (task : Task) (h : mayWait task = false) :
    (w.runTask t task).isSome = true := by
  cases task <;> simp_all [mayWait, runTask]

def canMove (w : World) (t : Nat) : Bool :=
  match (w.threads[t]?).bind fun x => x.tasks.head? with
  | none => false
  | some task => if mayWait task then (w.step t).isSome else true

/-- A thread can move exactly if there is a step of it. -/
theorem canMove_eq_isSome_step (w : World) (t : Nat) : w.canMove t = (w.step t).isSome := by
  unfold canMove
  cases hx : w.threads[t]? with
  | none => simp [step, hx]
  | some x =>
      cases hs : x.tasks with
      | nil => simp [step, hx, hs]
      | cons task rest =>
          cases hw : mayWait task with
          | true => simp [hs, hw]
          | false => simp [step, hx, hs, hw, runTask_isSome]

/-- The clock on which a task waits, in milliseconds. -/
def clockOf (w : World) : Task → Option Nat
  | .registry e op => (w.engines[e]?).bind fun x => x.registry.clock? op
  | .awaitEntry _ ms => ms
  | .awaitDrain _ ms => some ms
  | .awaitExit e => (w.engines[e]?).map fun x => x.settings.shutdownTimeoutMs
  | _ => none

/-- The clock on which a thread waits, if it is inside an instruction whose time limit can run
out. -/
def clock? (w : World) (t : Nat) : Option Nat :=
  match w.threads[t]? with
  | none => none
  | some x => if x.instruction.isSome && x.timed then x.tasks.head?.bind w.clockOf else none

def expire (w : World) (t : Nat) : World := w.modifyThread t fun x => { x with expired := true }

end World

end ManagedHeap
