import ManagedHeap.Collection.Pause
import ManagedHeap.Error

/-!
# Finalization

**Input.**  Batches of finalizers from finished collections, and a call to stop.

**Algorithm.**  One thread runs all finalizers of a runtime.  Batches reach it over a channel, in
order; what is sent before the thread is started waits there.  A stopping runtime accepts no more
work, tells the thread to run or to drop what is queued, and waits for it to leave.  A counter says
how many finalizers are neither run nor dropped; whoever waits for zero sleeps until it changes.

**Results.**  Every definition here is one atomic section of the schedule, stop or service loop.
-/

namespace ManagedHeap

/-- What the finalizer thread is sent. -/
inductive Message (φ : Type) where
  | run (jobs : List (Job φ))
  | shutdown (runPending : Bool)

/-- Who has the receiving end of the channel. -/
inductive Receiver where
  /-- Nobody yet. -/
  | unclaimed
  /-- The finalizer thread, or a stop that drains the channel. -/
  | claimed
  /-- It is gone; nothing can be sent any more. -/
  | closed
  deriving DecidableEq, Repr

/-- The finalizer thread of a runtime as its callers see it. -/
structure Finalization (φ : Type) where
  threadName : String
  enabled : Bool
  receiver : Receiver := .unclaimed
  channel : List (Message φ) := []
  /-- Whether the thread was started and nobody has begun to wait for its end. -/
  joinable : Bool := false
  running : Bool := false
  accepting : Bool := true
  /-- Finalizers scheduled and neither run nor dropped. -/
  pending : Nat := 0
  exited : Bool := false
  /-- Threads that sleep until a finalizer is done. -/
  awaitingDrain : List Nat := []
  /-- Threads that sleep until the finalizer thread has left. -/
  awaitingExit : List Nat := []

namespace Finalization

variable {φ : Type}

/-- The finalization that settings ask for, not started. -/
def ofSettings (s : Settings) : Finalization φ where
  threadName := s.finalizerThreadName
  enabled := s.finalizerEnabled

section Start

/-- Starts the thread: it takes the receiving end. -/
def start (f : Finalization φ) : Except Error (Finalization φ) :=
  match f.receiver with
  | .unclaimed => .ok { f with receiver := .claimed, joinable := true, running := true }
  | _ => .error (.invalidState "finalizer not started" "finalizer already started or stopped")

end Start

section Schedule

def accepts (f : Finalization φ) : Bool := f.enabled && f.accepting

def enrol (f : Finalization φ) (n : Nat) : Finalization φ := { f with pending := f.pending + n }

/-- Sends a message, unless the receiving end is gone. -/
def send (f : Finalization φ) (m : Message φ) : Option (Finalization φ) :=
  if f.receiver = .closed then none else some { f with channel := f.channel ++ [m] }

def receive? (f : Finalization φ) : Option (Message φ × Finalization φ) :=
  match f.channel with
  | [] => none
  | m :: rest => some (m, { f with channel := rest })

/-- The receiving end goes away; what is still queued is lost. -/
def close (f : Finalization φ) : Finalization φ := { f with receiver := .closed, channel := [] }

def retire (f : Finalization φ) (n : Nat) : Finalization φ := { f with pending := f.pending - n }

/-- Wakes those who wait for work to be done. -/
def announce (f : Finalization φ) : Finalization φ := { f with awaitingDrain := [] }

end Schedule

section Stop

def refuse (f : Finalization φ) : Finalization φ := { f with accepting := false }

def leave (f : Finalization φ) : Finalization φ := { f with exited := true }

/-- Wakes those who wait for the thread to leave. -/
def announceExit (f : Finalization φ) : Finalization φ := { f with awaitingExit := [] }

end Stop

end Finalization

end ManagedHeap
