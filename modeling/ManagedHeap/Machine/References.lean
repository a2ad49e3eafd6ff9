import ManagedHeap.Machine.World

/-!
# References and queues

The tasks with which references reach their queues and threads take them off.  Every change of stage
is one compare-and-exchange, every look at a queue one critical section.
-/

namespace ManagedHeap

namespace World

section Enqueue

/-- Moves a reference from one stage to another; the answer says whether it was in the first. -/
def exchangeStage (w : World) (h : Handle) (old new : ReferenceStage) : Bool × World :=
  match w.engines[h.heap]? with
  | none => (false, w)
  | some x =>
      let moved := x.heap.exchangeStage h.position old new
      (moved.1, w.modifyHeap h.heap fun _ => moved.2)

/-- Begins to put a reference on its queue; the call holds a handle until it is over. -/
def beginEnqueue (w : World) (t : Nat) (h : Handle) : World :=
  (w.modifyReference h Heap.retain).push t [.clearReferent h, .releaseReference h]

/-- Clears a reference that is to be put on its queue; without a queue that is all. -/
def clearReferent (w : World) (t : Nat) (h : Handle) : World :=
  let cleared := w.modifyReference h Heap.clearReference
  match (w.reference? h).bind (·.queue) with
  | some q => cleared.push t [.claimActive h q]
  | none => cleared.answer t (.flag false)

/-- Tries to claim an active reference for its queue. -/
def claimActive (w : World) (t : Nat) (h : Handle) (q : Nat) : World :=
  match w.exchangeStage h .active .enqueued with
  | (true, claimed) => (claimed.answer t (.flag true)).push t [.pushQueue q h]
  | (false, same) => same.push t [.claimPending h q]

/-- Tries to claim a pending reference for its queue. -/
def claimPending (w : World) (t : Nat) (h : Handle) (q : Nat) : World :=
  match w.exchangeStage h .pending .enqueued with
  | (true, claimed) => (claimed.answer t (.flag true)).push t [.pushQueue q h]
  | (false, same) => same.answer t (.flag false)

/-- Puts a reference on a queue, which holds on to it. -/
def pushQueue (w : World) (q : Nat) (h : Handle) : World :=
  (w.modifyReference h Heap.retain).modifyQueue q (·.push h)

end Enqueue

section Removal

/-- Takes an entry off a queue if there is one. -/
def pollQueue (w : World) (t q : Nat) : World :=
  match (w.queues[q]?).bind (·.pop?) with
  | none => w.answer t (.entry none)
  | some (h, rest) => (w.modifyQueue q fun _ => rest).push t [.finishRemoval q h]

def setBlocker (w : World) (t : Nat) (q : Option Nat) : World :=
  match w.attachmentOf t with
  | some a => w.modifyRegistry a.engine (·.waitOn a.id q)
  | none => w

/-- Whether the interrupt flag of a thread is set. -/
def isInterrupted (w : World) (t : Nat) : Bool :=
  match w.attachmentOf t with
  | some a =>
      match w.engines[a.engine]? with
      | some x => x.registry.isInterrupted a.id
      | none => false
  | none => false

def clearInterrupt (w : World) (t : Nat) : World :=
  match w.attachmentOf t with
  | some a => w.modifyRegistry a.engine (·.clearInterrupt a.id)
  | none => w

def awaitEntry (w : World) (t q : Nat) (ms : Option Nat) : Option World :=
  match w.queues[q]? with
  | none => some (w.answer t (.entry none))
  | some queue =>
      if queue.isAsleep t && !w.isExpired t then none
      else
        match (queue.wake t).await t (w.isInterrupted t) (w.isExpired t ||
          decide (ms = some 0)) with
        | (rest, .taken h) => some ((w.modifyQueue q fun _ => rest).push t [.finishRemoval q h])
        | (rest, .interrupted) =>
            some (((w.modifyQueue q fun _ => rest).clearInterrupt t).answer t
              (.failed .interrupted))
        | (rest, .timedOut) => some ((w.modifyQueue q fun _ => rest).answer t (.entry none))
        | (rest, .sleeps) => some ((w.modifyQueue q fun _ => rest).push t [.awaitEntry q ms])

/-- A reference that was taken off its queue is inactive; the handle of the queue passes on. -/
def finishRemoval (w : World) (t q : Nat) (h : Handle) : World :=
  ((w.exchangeStage h .enqueued .inactive).2.modifyQueue q Queue.countRemoval).answer t
    (.entry (some h))

end Removal

end World

end ManagedHeap
