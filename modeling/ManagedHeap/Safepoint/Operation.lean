import ManagedHeap.Call
import ManagedHeap.Safepoint.Registry

/-!
# Safepoint operations

**Input.**  A registry, the thread that acts, the call it is in, and whether the time of that call
has run out.

**Algorithm.**  A call on the registry is a sequence of critical sections.  Each section sees the
registry as others left it; a section that has to wait puts its thread to sleep and leaves behind
what it will do when it is woken.  The conditions are looked at again after every waking.

**Results.**  `Registry.step` performs one section; `none` says that the thread is asleep.
-/

namespace ManagedHeap

/-- A call on a registry, or the rest of one. -/
inductive Operation where
  /-- Come in if something asks for it. -/
  | poll (id : ThreadId)
  | enterBlocking (id : ThreadId)
  /-- Leave a blocking region and park while the hold lasts. -/
  | leaveBlocking (id : ThreadId) (hold : Hold)
  | parked (id : ThreadId) (hold : Hold)
  | requestSuspend (target : ThreadId)
  | resume (target : ThreadId)
  /-- Wait, at most so many milliseconds, until a suspended thread stands still. -/
  | awaitSuspension (target : ThreadId) (ms : Nat)
  | stopWorld (initiator : Option ThreadId)
  | awaitStops (initiator : Option ThreadId)
  | releaseWorld
  | attach (name : String)
  | detach (id : ThreadId)
  deriving DecidableEq, Repr

/-- How far a section brought its call. -/
inductive Progress where
  /-- The call is over and has no value. -/
  | finished
  | answered (r : Reply)
  | continues (op : Operation)
  deriving DecidableEq, Repr

def suspendCountMax : Nat := UInt32.size - 1

namespace Registry

/-- Parks a thread: it stands still, everybody hears of it, and it sleeps. -/
def park (r : Registry) (thread : Nat) (id : ThreadId) : Registry :=
  (({ r.update id fun m =>
    { m with status := .suspended } with reached := r.reached + 1 }).wakeAll).sleep thread

/-- One section of a call; `none` if the thread is asleep. -/
def step (r : Registry) (thread : Nat) (expired : Bool) : Operation → Option (Registry × Progress)
  | .poll id =>
      if r.mustPark id then some (r.park thread id, .continues (.parked id .any))
      else some (r.update id Mutator.withdrawRequest, .finished)
  | .enterBlocking id =>
      some ((r.update id fun m => { m with status := .blocked }).wakeAll, .finished)
  | .leaveBlocking id hold =>
      if r.holds id hold then some (r.park thread id, .continues (.parked id hold))
      else some (r.update id Mutator.resumeRunning, .finished)
  | .parked id hold =>
      if r.isAsleep thread then none
      else if r.holds id hold then some (r.sleep thread, .continues (.parked id hold))
      else some ((r.update id Mutator.resumeRunning).wakeAll, .finished)
  | .requestSuspend target =>
      match r.get? target with
      | none => some (r, .answered (.failed (.threadNotFound target)))
      | some m =>
          let count := min (m.suspendCount + 1) suspendCountMax
          some (r.update target fun m => { m with suspendCount := count }.requestStop,
            .answered (.count count))
  | .resume target =>
      match r.get? target with
      | none => some (r, .answered (.failed (.threadNotFound target)))
      | some m =>
          if m.suspendCount = 0 then some (r, .answered (.change none))
          else
            let count := m.suspendCount - 1
            let lowered := r.update target fun m => { m with suspendCount := count }
            if count = 0 then
              let held := r.worldStopped && r.initiator != some target
              some ((if held then lowered else lowered.update target
                  Mutator.withdrawRequest).wakeAll, .answered (.change (some count)))
            else some (lowered, .answered (.change (some count)))
  | .awaitSuspension target ms =>
      if r.isAsleep thread && !expired then none
      else
        match r.get? target with
        | none => some (r.wake thread, .answered (.failed (.threadNotFound target)))
        | some m =>
            if m.isSuspended then some (r.wake thread, .answered (.flag true))
            else if expired || decide (ms = 0) then some (r.wake thread, .answered (.flag false))
            else some (r.sleep thread, .continues (.awaitSuspension target ms))
  | .stopWorld initiator =>
      if r.isAsleep thread then none
      else if r.worldStopped then some (r.sleep thread, .continues (.stopWorld initiator))
      else
        let claimed := r.claim initiator
        if claimed.allStopped then some (claimed, .answered (.count (claimed.held initiator)))
        else some (claimed.sleep thread, .continues (.awaitStops initiator))
  | .awaitStops initiator =>
      if r.isAsleep thread && !expired then none
      else if r.allStopped then some (r.wake thread, .answered (.count (r.held initiator)))
      else if expired then some (r.release.wakeAll, .answered (.failed r.lateness))
      else some (r.sleep thread, .continues (.awaitStops initiator))
  | .releaseWorld => some (r.release.wakeAll, .finished)
  | .attach name =>
      let fresh : Mutator := { id := r.nextId, name := name }
      let entry := if r.worldStopped then fresh.requestStop else fresh
      some ({ r with mutators := r.mutators ++ [entry], nextId := r.nextId + 1 },
        .answered (.count r.nextId))
  | .detach id =>
      some (({ r with mutators := r.mutators.filter (·.id != id) }).wakeAll, .finished)

/-- The clock on which a call waits, in milliseconds. -/
def clock? (r : Registry) : Operation → Option Nat
  | .awaitSuspension _ ms => some ms
  | .awaitStops _ => r.timeout
  | _ => none

end Registry

end ManagedHeap
