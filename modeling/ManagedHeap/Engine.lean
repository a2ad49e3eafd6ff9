import ManagedHeap.Agent
import ManagedHeap.Finalization
import ManagedHeap.Journal.Basic
import ManagedHeap.Safepoint.Registry
import ManagedHeap.Statistics.Summary

/-!
# Engines

An engine is one runtime as a value: a heap with its collector, the registry of its threads, its
finalizer thread, its agents, its journal and its statistics.  `φ` is the type of finalizers, `β`
that of agents.
-/

namespace ManagedHeap

/-- Where an engine is in its life. -/
inductive EngineState where
  | initialized
  | running
  | stopping
  | stopped
  deriving DecidableEq, Repr

def EngineState.name : EngineState → String
  | .initialized => "Initialized"
  | .running => "Running"
  | .stopping => "Stopping"
  | .stopped => "Stopped"

/-- What collections share. -/
structure Collector where
  phase : Phase := .idle
  /-- Finished cycles. -/
  cycles : Nat := 0
  /-- The thread whose collection is under way. -/
  owner : Option Nat := none
  deriving DecidableEq, Repr

/-- One runtime. -/
structure Engine (φ β : Type) where
  settings : Settings
  state : EngineState := .initialized
  heap : Heap φ
  collector : Collector := {}
  registry : Registry
  finalization : Finalization φ
  agents : Agents β := {}
  journal : Journal
  statistics : Statistics := {}
  /-- Outstanding handles; without one the engine stops. -/
  handles : Nat := 1

namespace Engine

variable {φ β : Type}

/-- A new engine with its place among all engines, or the reason why the settings are not
accepted. -/
def ofSettings (key : Nat) (s : Settings) (disk : Disk) : Except Error (Engine φ β × Emission) :=
  match s.fault? with
  | some e => .error (.configuration e.message)
  | none =>
      let opened := Journal.start (JournalConfig.ofSettings s) disk
      .ok ({ settings := s
             heap := Heap.empty key s.heapCapacity
             registry := { timeout := s.safepointTimeoutMs }
             finalization := Finalization.ofSettings s
             journal := opened.1 }, opened.2)

/-- Starts an engine that was not started before; the answer lists what to report. -/
def start (x : Engine φ β) : Except Error (Engine φ β × List LogRecord) :=
  if x.state ≠ .initialized then
    .error (.invalidState EngineState.initialized.name x.state.name)
  else
    let announced : LogRecord := ⟨.info,
          "hgc runtime started (heap capacity " ++ toString x.settings.heapCapacity ++ " bytes)"⟩
    if x.settings.finalizerEnabled then
      match x.finalization.start with
      | .error e => .error e
      | .ok f =>
          .ok ({ x with finalization := f, state := .running },
            [⟨.debug, "finalizer thread '" ++ f.threadName ++ "' started"⟩, announced])
    else .ok ({ x with state := .running }, [announced])

/-- Number of references that the collector knows of. -/
def referenceCount (x : Engine φ β) : Nat := x.heap.registered.length

end Engine

end ManagedHeap
