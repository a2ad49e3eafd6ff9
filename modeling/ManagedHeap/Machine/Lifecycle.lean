import ManagedHeap.Machine.Finalizers

/-!
# The life of an engine

Engines are made from settings, started, stopped and dropped.  Stopping may run a last collection;
then the finalizer thread is told to leave and waited for, but not longer than the settings say.
The last handle that goes stops its engine.
-/

namespace ManagedHeap

namespace World

section Start

/-- Makes an engine; the answer is its position. -/
def makeEngine (w : World) (s : Settings) (disk : Disk) : Except Error (Nat × World) :=
  match Engine.ofSettings w.engines.size s disk with
  | .error e => .error e
  | .ok (x, emission) => .ok (w.engines.size, { w with engines := w.engines.push x }.emit emission)

/-- Starts an engine and its finalizer thread. -/
def startEngine (w : World) (e : Nat) : Except Error World :=
  match w.engines[e]? with
  | none => .ok w
  | some x =>
      match x.start with
      | .error err => .error err
      | .ok (started, records) =>
          let running := (w.modifyEngine e fun _ => started).report records
          if started.settings.finalizerEnabled then
            .ok (running.spawn { name := started.finalization.threadName, tasks := [.serve e] }).2
          else .ok running

end Start

section Stop

/-- Begins to stop an engine, unless that was done before. -/
def stopEngine (w : World) (t e : Nat) : World :=
  match w.engines[e]? with
  | none => w
  | some x =>
      if x.state = .stopped ∨ x.state = .stopping then w.answer t .unit
      else
        let stopping := w.modifyEngine e fun x => { x with state := .stopping }
        if x.settings.runFinalizersOnExit then
          stopping.push t (collectTasks e .shutdown ++ [.shutdownCollected e, .refuseWork e])
        else stopping.push t [.refuseWork e]

def shutdownCollected (w : World) (t : Nat) : World :=
  match w.replyOf t with
  | .failed e => w.report [⟨.warn, "shutdown collection failed: " ++ e.message⟩]
  | _ => w

def refuseWork (w : World) (t e : Nat) : World :=
  (w.modifyFinalization e Finalization.refuse).push t [.claimReceiver e]

/-- Drops what a thread that never started would have run, or tells the thread to leave. -/
def claimReceiver (w : World) (t e : Nat) : World :=
  match w.engines[e]? with
  | none => w
  | some x =>
      let f := x.finalization
      if f.receiver = .unclaimed then
        (w.modifyFinalization e fun f => { f with receiver := .claimed }).push t [.drainUnstarted e]
      else if !f.joinable then w.push t [.stopped e]
      else
        let joined := { f with joinable := false }
        match joined.send (.shutdown x.settings.runFinalizersOnExit) with
        | some sent => (w.modifyFinalization e fun _ => sent).push t [.awaitExit e]
        | none =>
            let exited :=
              "finalizer thread '" ++ f.threadName ++ "' already exited, shutdown request dropped"
            ((w.modifyFinalization e fun _ => joined).report [⟨.debug, exited⟩]).push t
              [.awaitExit e]

/-- Drops what was queued for a thread that never started. -/
def drainUnstarted (w : World) (t e : Nat) : World :=
  match (w.engines[e]?).bind fun x => x.finalization.receive? with
  | none => w.push t [.closeChannel e, .stopped e]
  | some (message, rest) =>
      let received := w.modifyFinalization e fun _ => rest
      match message with
      | .run jobs => received.push t [.discardJobs e jobs jobs.length, .drainUnstarted e]
      | .shutdown _ => received.push t [.drainUnstarted e]

/-- The records of a finalizer thread that did not leave in time. -/
def detachRecords (name : String) (ms : Nat) : List LogRecord :=
  [⟨.warn, "finalizer thread '" ++ name ++ "' did not exit within " ++ Text.inspectMillis ms ++
    "; detaching"⟩, ⟨.warn, "finalizer thread did not exit within " ++ Text.inspectMillis ms⟩]

/-- Sleeps until the finalizer thread has left or the time has run out. -/
def awaitExit (w : World) (t e : Nat) : Option World :=
  match w.engines[e]? with
  | none => some w
  | some x =>
      let f := x.finalization
      if f.awaitingExit.contains t && !w.isExpired t then none
      else
        let awake :=
          w.modifyFinalization e fun f => { f with awaitingExit := f.awaitingExit.filter (· != t) }
        let idle := awake.modifyFinalization e fun f => { f with running := false }
        if f.exited then
          some ((idle.report [⟨.debug, "finalizer thread '" ++ f.threadName ++ "' stopped"⟩]).push t
            [.stopped e])
        else if w.isExpired t then
          some ((idle.report (detachRecords f.threadName x.settings.shutdownTimeoutMs)).push t
            [.stopped e])
        else
          some ((awake.modifyFinalization e fun f =>
              { f with awaitingExit := f.awaitingExit ++ [t] }).push t [.awaitExit e])

def stopped (w : World) (t e : Nat) : World :=
  ((w.modifyEngine e fun x => { x with state := .stopped }).report
    [⟨.info, "hgc runtime stopped"⟩]).answer t .unit

/-- Gives back a handle; the last one stops the engine. -/
def releaseEngine (w : World) (t e : Nat) : World :=
  match w.engines[e]? with
  | none => w
  | some x =>
      let released := w.modifyEngine e fun x => { x with handles := x.handles - 1 }
      if x.handles = 1 then released.push t [.stopEngine e, .reply (w.replyOf t)] else released

end Stop

end World

end ManagedHeap
