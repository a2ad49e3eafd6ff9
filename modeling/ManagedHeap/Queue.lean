import ManagedHeap.Call

/-!
# Reference queues

**Input.**  References that were cleared, and threads that want to take them.

**Algorithm.**  First in, first out.  A thread that finds the queue empty sleeps; putting a
reference on the queue wakes one sleeper, an interrupt wakes all.  Which sleeper an entry wakes is
not for the queue to say: it is the one that stands first, and `Queue.favour` puts any of them
there.  A woken thread looks again: at the queue first, then at its interrupt flag, then at its
clock.

**Results.**  `Queue.push`, `Queue.pop?` and `Queue.await`, each of them one critical section.
-/

namespace ManagedHeap

/-- A queue of cleared references. -/
structure Queue where
  /-- Oldest first. -/
  entries : List Handle := []
  enqueued : Nat := 0
  removed : Nat := 0
  /-- The threads that wait for an entry, the one that is woken next first. -/
  asleep : List Nat := []
  deriving DecidableEq, Repr

/-- What a look at a queue came to. -/
inductive Look where
  | taken (h : Handle)
  | interrupted
  | timedOut
  /-- The thread sleeps now. -/
  | sleeps
  deriving DecidableEq, Repr

namespace Queue

/-- Appends a reference and wakes one thread, if one sleeps. -/
def push (q : Queue) (h : Handle) : Queue :=
  { q with entries := q.entries ++ [h], enqueued := q.enqueued + 1, asleep := q.asleep.drop 1 }

/-- Makes a sleeping thread the one that is woken next. -/
def favour (q : Queue) (thread : Nat) : Queue :=
  if thread ∈ q.asleep then { q with asleep := thread :: q.asleep.erase thread } else q

def pop? (q : Queue) : Option (Handle × Queue) :=
  match q.entries with
  | [] => none
  | h :: rest => some (h, { q with entries := rest })

def countRemoval (q : Queue) : Queue := { q with removed := q.removed + 1 }

def wakeAll (q : Queue) : Queue := { q with asleep := [] }

/-- Wakes one thread, whose time has run out. -/
def wake (q : Queue) (thread : Nat) : Queue := { q with asleep := q.asleep.filter (· != thread) }

def isAsleep (q : Queue) (thread : Nat) : Bool := q.asleep.contains thread

def await (q : Queue) (thread : Nat) (interrupted expired : Bool) : Queue × Look :=
  match q.pop? with
  | some (h, rest) => (rest, .taken h)
  | none =>
      if interrupted then (q, .interrupted)
      else if expired then (q, .timedOut)
      else ({ q with asleep := q.asleep ++ [thread] }, .sleeps)

def inspect (q : Queue) : String :=
  Text.inspectRecord "ReferenceQueue"
    [("len", toString q.entries.length), ("total_enqueued", toString q.enqueued)]

end Queue

end ManagedHeap
