import ManagedHeap.Machine.Step

/-!
# Schedules

**Input.**  A program: instructions, each for a named thread.

**Algorithm.**  One instruction after the other is handed to its thread, and all threads run until
none can move.  At first finalizers wait before their first action, then they are let go.  If
somebody then still waits on a clock, in an instruction with a time limit of at most a second, the
shortest such clock runs out, and all run again.  A thread that is still inside an earlier
instruction is not given another one.

**Results.**  `World.obey` hands out one instruction and brings the world to rest.
-/

namespace ManagedHeap

/-- What can be seen of the first runtime. -/
structure EngineView where
  objects : Nat
  usedBytes : Nat
  references : Nat
  pendingFinalizers : Nat
  cycles : Nat
  deriving DecidableEq, Repr

namespace World

section Rest

def mover? (w : World) : Option Nat := (List.range w.threads.size).find? w.canMove

def advance (w : World) (t : Nat) : World := (w.step t).getD {}

/-- Runs all threads until none can move, at most so many steps. -/
def settle : Nat → World → World
  | 0, w => w
  | fuel + 1, w =>
      match w.mover? with
      | none => w
      | some t => settle fuel (w.advance t)

/-- Clocks above this many milliseconds never run out. -/
def patience : Nat := 1000

/-- The thread whose clock runs out first, with that clock. -/
def nextClock (w : World) : Option (Nat × Nat) :=
  (List.range w.threads.size).foldl
    (fun best t =>
      match w.clock? t with
      | none => best
      | some ms =>
          if patience < ms then best
          else
            match best with
            | none => some (t, ms)
            | some (u, least) => if ms < least then some (t, ms) else some (u, least))
    none

/-- Lets clocks run out one after the other, at most so many, and all threads run after each. -/
def runClocks (fuel : Nat) : Nat → World → World
  | 0, w => w
  | n + 1, w =>
      match w.nextClock with
      | none => w
      | some (t, _) => runClocks fuel n (settle fuel (w.expire t))

/-- Steps that a world may take on the way to rest; programs come to rest long before. -/
def stepLimit : Nat := 1000000000

/-- Clocks that may run out on the way to rest. -/
def clockLimit : Nat := 10000

def rest (w : World) : World :=
  let held := settle stepLimit { w with bodiesHeld := true }
  let free := settle stepLimit { held with bodiesHeld := false }
  runClocks stepLimit clockLimit free

end Rest

section Obey

/-- The thread of a name, made when it is first used. -/
def threadNamed (w : World) (name : String) : Nat × World :=
  match w.names.threads.get? name with
  | some t => (t, w)
  | none =>
      let made := w.spawn { name := name }
      (made.1, { made.2 with names :=
          { made.2.names with threads := made.2.names.threads.insert name made.1 } })

/-- Whether a thread is inside an instruction or has something left to do. -/
def isBusy (w : World) (t : Nat) : Bool :=
  match w.threads[t]? with
  | some x => x.instruction.isSome || !x.tasks.isEmpty
  | none => false

/-- Takes the output in order; what is on the console stays there until somebody looks. -/
def takeOutput (w : World) : Output × World :=
  (w.output.inOrder, { w with output := { printed := w.output.printed } })

/-- The time limit of an instruction in milliseconds. -/
def timeLimit? (w : World) (i : Instruction) : Option Nat :=
  let settings (label : String) :=
    ((w.names.engines.get? label).bind fun e => w.engines[e]?).map (·.settings)
  match i.timeLimit with
  | .never => none
  | .given ms => some ms
  | .safepoint label => (settings label).bind (·.safepointTimeoutMs)
  | .shutdown label => (settings label).map (·.shutdownTimeoutMs)

/-- Whether the time limit of an instruction can run out. -/
def isTimed (w : World) (i : Instruction) : Bool :=
  match w.timeLimit? i with
  | none => false
  | some ms => decide (ms ≤ patience)

/-- Hands an instruction with its number to a thread and brings the world to rest; a busy thread is
left alone. -/
def obey (w : World) (thread : String) (number : Nat) (i : Instruction) : Option (Output × World) :=
  let (t, ready) := w.threadNamed thread
  if ready.isBusy t then none
  else
    some (rest (ready.modifyThread t fun x => { x with
      tasks := [.perform i], instruction := some number, timed := ready.isTimed i })).takeOutput

/-- A world with one runtime, or the answer that there is none. -/
def begin (s : EngineSpec) (label : String) : Except Answer World :=
  match s.settings with
  | none => .error .unreadable
  | some settings =>
      match makeEngine {} settings s.disk with
      | .error e => .error (.failed e)
      | .ok (e, made) =>
          match (if s.start then made.startEngine e else .ok made) with
          | .error err => .error (.failed err)
          | .ok ready =>
              .ok { ready with names :=
                { ready.names with engines := ready.names.engines.insert label e } }

/-- What can be seen of the runtime of a name. -/
def view? (w : World) (label : String) : Option EngineView :=
  ((w.names.engines.get? label).bind fun e => w.engines[e]?).map fun x =>
    ⟨x.heap.space.liveObjects, x.heap.space.usedBytes, x.referenceCount, x.finalization.pending,
      x.collector.cycles⟩

end Obey

end World

end ManagedHeap
