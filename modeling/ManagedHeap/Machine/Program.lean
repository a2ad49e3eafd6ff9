import ManagedHeap.Machine.Foreign

/-!
# Performing instructions

**Input.**  The instruction that a thread is given.

**Algorithm.**  Names are looked up first, the runtime before anything else; what is not there is
refused.  Short instructions are answered at once.  Calls that can wait become tasks, followed by
one that shows their value and binds it to a name.  Until then such a call holds a handle on its
runtime or its agent; whoever only stops the world holds none.

**Results.**  `World.perform`, and the tasks of instructions that make several calls.
-/

namespace ManagedHeap

namespace World

section Objects

/-- Makes an engine for the program; an engine that had the name is given up. -/
def performMakeEngine (w : World) (t : Nat) (label : String) (s : EngineSpec) : World :=
  match s.settings with
  | none => w.complete t .unreadable
  | some settings =>
      match w.makeEngine settings s.disk with
      | .error e => w.complete t (.failed e)
      | .ok (e, made) =>
          match (if s.start then made.startEngine e else .ok made) with
          | .error err => made.complete t (.failed err)
          | .ok ready =>
              let old := ready.names.engines.get? label
              let bound := { ready with names :=
                    { ready.names with engines := ready.names.engines.insert label e } }
              match old with
              | some o => bound.push t [.releaseEngine o, .finish (.other .null)]
              | none => bound.complete t .null

/-- Gives up the program's handle on an engine. -/
def performDropEngine (w : World) (t : Nat) (label : String) : World :=
  match w.names.engines.get? label with
  | none => w.complete t (.flag false)
  | some e =>
      ({ w with names := { w.names with engines := w.names.engines.erase label } }).push t
        [.releaseEngine e, .finish (.other (.flag true))]

def performBuild (w : World) (t : Nat) (engine : String) (spec : ObjectSpec) : World :=
  let s : ObjectSpec :=
    match w.names.engines.get? engine with
    | some _ => spec
    | none => { spec with finalizer := none }
  let made := w.makeRequest s
  let shown : Answer :=
    match Footprint.footprint s.size s.fields with
    | .ok n => .blueprint n s
    | .error f => .fault f
  made.2.push t [.dropFinalizers made.1.finalizer.toList, .finish (.other shown)]

/-- Gives back the root of a name and counts it, if the name has one. -/
def dropNamed (s : Nat × World) (label : String) : Nat × World :=
  match s.2.names.objects.get? label with
  | none => s
  | some r => (s.1 + 1, { s.2 with names :=
        { s.2.names with objects := s.2.names.objects.erase label } }.dropRoot r)

/-- Gives back the roots of names; the answer counts the names that had one. -/
def performDropRoots (w : World) (t : Nat) (labels : List String) : World :=
  let dropped := labels.foldl dropNamed (0, w)
  dropped.2.complete t (.number dropped.1)

def sameness (w : World) (a b : String) : Answer :=
  match w.names.objects.get? a, w.names.objects.get? b with
  | some x, some y => .sameness (decide (x = y)) (decide (x.object = y.object))
  | none, none => .sameness false true
  | _, _ => .sameness false false

def heapView (x : Runtime) : HeapView where
  capacity := x.heap.space.capacity
  used := x.heap.space.usedBytes
  available := x.heap.space.available
  objects := x.heap.space.liveObjects
  references := x.referenceCount
  totalAllocated := x.heap.totalAllocated
  utilization := x.heap.utilization
  diagnosis := x.heap.inspect

/-- Begins with the next of several allocations. -/
def garbage (w : World) (t e : Nat) (s : ObjectSpec) (index remaining : Nat) : World :=
  match remaining with
  | 0 => w.push t [.releaseEngine e, .finish (.other (.number index))]
  | n + 1 =>
      let made := w.makeRequest s
      made.2.push t [.allocate e made.1, .garbageNext e s index n]

/-- Drops what was allocated; a failure ends the sequence. -/
def garbageNext (w : World) (t e : Nat) (s : ObjectSpec) (index remaining : Nat) : World :=
  match w.replyOf t with
  | .object (some r) => (w.dropRoot r).push t [.garbage e s (index + 1) remaining]
  | .failed err => w.push t [.releaseEngine e, .finish (.other (.stoppedAt index err))]
  | reply => w.push t [.releaseEngine e, .finish (.other (answerOf reply))]

/-- Gives back the root of a chain's last link, if there is one. -/
def dropPrevious (w : World) (previous : Option Root) : World :=
  match previous with
  | some r => w.dropRoot r
  | none => w

/-- Begins with the next link of a chain; a chain that is done is bound to its name. -/
def chain (w : World) (t e size index remaining : Nat) (previous : Option Root)
    (bind : Option String) : World :=
  match remaining, previous with
  | n + 1, previous =>
    w.push t [.allocate e ⟨size, 1, none⟩, .chainNext e size index n previous bind]
  | 0, none => w.push t [.releaseEngine e, .finish (.other .null)]
  | 0, some r =>
    (w.bindObject? bind r).push t [.releaseEngine e, .finish (.other (.object r.object))]

def chainNext (w : World) (t e size index remaining : Nat) (previous : Option Root)
    (bind : Option String) : World :=
  match w.replyOf t, previous with
  | .object (some r), none => w.push t [.chain e size (index + 1) remaining (some r) bind]
  | .object (some r), some p =>
      match (w.engines[e]?).map fun (x : Runtime) => x.heap.checkField r 0 (some p) with
      | some (.error err) =>
          ((w.dropRoot r).dropRoot p).push t [.releaseEngine e,
            .finish (.other (.stoppedAt index err))]
      | _ =>
          ((w.modifyHeap e fun h => h.writeField r 0 (some p.object)).dropRoot p).push t
            [.chain e size (index + 1) remaining (some r) bind]
  | .failed err, previous =>
      (w.dropPrevious previous).push t [.releaseEngine e, .finish (.other (.stoppedAt index err))]
  | reply, previous =>
      (w.dropPrevious previous).push t [.releaseEngine e, .finish (.other (answerOf reply))]

end Objects

section References

/-- Makes a reference and binds it; a phantom reference is of no use without a queue. -/
def performNewReference (w : World) (t e : Nat) (label : String) (kind : Option ReferenceKind)
    (r : Root) (queue : Option Nat) : World :=
  match kind, queue, w.engines[e]? with
  | none, _, _ => w.refuse t .noSuchKind
  | some .phantom, none, _ => w.refuse t .phantomNeedsQueue
  | _, _, none => w.refuse t .noEngine
  | some kind, queue, some x =>
      match x.heap.newReference w.nextReference kind r queue with
      | .error err => w.complete t (.failed err)
      | .ok (i, heap) =>
          let made := { w.modifyHeap e fun _ => heap with
            nextReference := w.nextReference + 1
            firstReference := w.firstReference.or (some w.nextReference) }
          (made.bindReference label ⟨e, i⟩).complete t
            (.reference (made.numberShown w.nextReference) kind .active)

/-- Gives up the program's handle on a reference. -/
def performDropReference (w : World) (t : Nat) (label : String) : World :=
  match w.names.references.get? label with
  | none => w.complete t (.flag false)
  | some h =>
      (({ w with names := { w.names with references := w.names.references.erase label }
          }).modifyReference h Heap.release).complete t (.flag true)

/-- Clones a handle and binds the clone; without a name it is given back at once. -/
def performCloneReference (w : World) (t : Nat) (h : Handle) (bind : Option String) : World :=
  match bind with
  | none => w.complete t .null
  | some name => ((w.modifyReference h Heap.retain).bindReference name h).complete t .null

end References

section Threads

/-- Enters a blocking region that the thread will leave by another instruction. -/
def performEnterBlocking (w : World) (t : Nat) : World :=
  let inside (entered : Bool) : World :=
    w.modifyThread t fun x => { x with scopes := .blocking entered :: x.scopes }
  match w.enters t with
  | some a =>
      ((inside true).setRegion t true).push t
        [.registry a.engine (.enterBlocking a.id), .finish (.other .null)]
  | none => (inside false).complete t .null

/-- Leaves the stretch that a thread is directly inside. -/
def leaveScope (w : World) (t : Nat) : World :=
  w.modifyThread t fun x => { x with scopes := x.scopes.drop 1 }

/-- The stretch that a thread is directly inside. -/
def scopeOf (w : World) (t : Nat) : Option Scope := (w.threads[t]?).bind (·.scopes.head?)

def performLeaveBlocking (w : World) (t : Nat) (label : String) : World :=
  match w.scopeOf t with
  | some (.blocking false) => (w.leaveScope t).complete t .null
  | some (.blocking true) =>
      match w.attachmentOf t with
      | some a =>
          (w.leaveScope t).push t
            [.registry a.engine (.leaveBlocking a.id .any), .endRegion, .finish (.other .null)]
      | none => (w.leaveScope t).complete t .null
  | _ => w.withEngine t label fun _ _ => w.refuse t .noSuchStep

def performReleaseWorld (w : World) (t : Nat) (label : String) : World :=
  match w.scopeOf t with
  | some (.world e) =>
      (w.leaveScope t).push t [.registry e .releaseWorld, .finish (.other .null)]
  | _ => w.withEngine t label fun _ _ => w.refuse t .noSuchStep

/-- Detaches a thread that is inside no region. -/
def performDetach (w : World) (t : Nat) : World :=
  match w.scopeOf t with
  | some _ => w.refuse t .nested
  | none => (w.push t [.finish .plain]).detach t false

/-- Registers an agent; the handle that the name had is given back. -/
def performRegisterAgent (w : World) (t e : Nat) (x : Runtime) (label : String) (c : Capabilities)
    (listens : Bool) (gate : Option (String × String)) : World :=
  let granted : Capabilities := if listens then c else {}
  let name := if listens then label else "noop"
  let made := x.agents.register granted ⟨label, listens, if listens then gate else none⟩
  let old := w.names.agents.get? label
  let registered := (w.modifyEngine e fun x => { x with agents := made.2 }).report
    [⟨.debug, registrationText name made.1 granted⟩]
  let handle : AgentHandle := ⟨e, made.1, granted⟩
  let bound := { registered.retainAgent handle with names :=
    { registered.names with agents := registered.names.agents.insert label handle } }
  let cleaned :=
    match old with
    | some o => bound.releaseAgent o
    | none => bound
  cleaned.complete t (.number made.1)

/-- Gives up the program's handle on an agent. -/
def performDropAgent (w : World) (t : Nat) (label : String) : World :=
  match w.names.agents.get? label with
  | none => w.complete t (.flag false)
  | some a =>
      ({ w with names := { w.names with agents := w.names.agents.erase label } }.releaseAgent
        a).complete t (.flag true)

/-- Runs a call of an agent that needs the capability to suspend; the call holds a handle on the
agent. -/
def controlCall (w : World) (t : Nat) (a : AgentHandle) (tasks : List Task) : World :=
  if a.capabilities.canSuspend then (w.retainAgent a).push t
    (tasks ++ [.releaseAgent a, .finish .plain])
  else w.complete t (.failed (.missingCapability "can_suspend"))

end Threads

/-- Performs an instruction, or begins with it. -/
def perform (w : World) (t : Nat) : Instruction → World
  | .makeEngine label s => w.performMakeEngine t label s
  | .dropEngine label => w.performDropEngine t label
  | .start label => w.withEngine t label fun e _ =>
      match w.startEngine e with
      | .ok started => started.complete t .null
      | .error err => w.complete t (.failed err)
  | .stop label => w.withEngine t label fun e _ => w.call t e [.stopEngine e] .plain
  | .state label => w.withEngine t label fun _ x =>
      w.complete t (.state x.state x.collector.phase x.collector.cycles)
  | .settings label => w.withEngine t label fun _ x => w.complete t (.settings x.settings)
  | .allocate label s bind => w.withEngine t label fun e _ =>
      let made := w.makeRequest s
      made.2.call t e [.allocate e made.1] (.object bind)
  | .garbage label n s =>
    w.withEngine t label fun e _ => (w.retainEngine e).push t [.garbage e s 0 n]
  | .chain label n size bind => w.withEngine t label fun e _ =>
      (w.retainEngine e).push t [.chain e size 0 n none bind]
  | .build label s => w.performBuild t label s
  | .cloneRoot object bind => w.withObject t object fun r =>
      match bind with
      | none => w.complete t .null
      | some name => ((w.cloneRoot r).bindObject name r).complete t .null
  | .dropRoots objects => w.performDropRoots t objects
  | .sameRoot a b => w.complete t (w.sameness a b)
  | .getField label object index bind =>
    w.withEngine t label fun e x => w.withObject t object fun r =>
      match x.heap.getField r index with
      | .error err => w.complete t (.failed err)
      | .ok (none, _) => w.complete t .null
      | .ok (some child, heap) =>
          ((w.modifyHeap e fun _ => heap).bindObject? bind child).complete t (.object child.object)
  | .setField label object index value =>
    w.withEngine t label fun e x => w.withObject t object fun r =>
      match x.heap.setField r index (value.bind w.names.objects.get?) with
      | .error err => w.complete t (.failed err)
      | .ok heap => (w.modifyHeap e fun _ => heap).complete t .null
  | .objectInfo label object => w.withEngine t label fun _ x => w.withObject t object fun r =>
      w.complete t (.objectInfo r (x.heap.sizeOf r) (x.heap.fieldCount r) (x.heap.isLive r.object)
        (x.heap.isFinalizerPending r.object))
  | .liveness label objects => w.withEngine t label fun _ x =>
      w.complete t (.liveness (objects.map fun o => (w.names.lastObjects.get? o).map fun id =>
        (id, x.heap.isLive id, x.heap.isFinalizerPending id)))
  | .heap label => w.withEngine t label fun _ x => w.complete t (.heap (heapView x))
  | .collect label reason => w.withEngine t label fun e _ =>
      match reason with
      | none => w.call t e [.collectOpen e] .plain
      | some reason => w.call t e [.collect e reason] .plain
  | .runFinalization label ms =>
    w.withEngine t label fun e _ => w.call t e [.runFinalization e ms] .plain
  | .statistics label => w.withEngine t label fun _ x => w.complete t (.statistics x.statistics)
  | .sampleCounts label => w.withEngine t label fun _ x =>
      w.complete t (.sampleCounts x.statistics.pauses.count x.statistics.safepointWaits.count)
  | .resetStatistics label => w.withEngine t label fun e _ =>
      (w.modifyStatistics e fun _ => {}).complete t .null
  | .events label => w.withEngine t label fun _ x => w.complete t (.events x.journal.events)
  | .eventCount label => w.withEngine t label fun _ x =>
      w.complete t (.eventCount x.journal.events.length x.journal.enabled)
  | .clearEvents label => w.withEngine t label fun e _ =>
      (w.modifyEngine e fun x => { x with journal := x.journal.clear }).complete t .null
  | .enableJournal label => w.withEngine t label fun e _ =>
      (w.modifyEngine e fun x => { x with journal := x.journal.enable }).complete t .null
  | .disableJournal label => w.withEngine t label fun e _ =>
      (w.modifyEngine e fun x => { x with journal := x.journal.disable }).complete t .null
  | .journalFile label => w.withEngine t label fun _ x => w.complete t
      (.file (if x.settings.logFile.isSome && x.journal.disk.opens then some x.journal.disk.content
        else none))
  | .console => { w with output := { w.output with printed := [] } }.complete t
      (.printed w.output.printed.reverse)
  | .openGate name => { w with openGates := name :: w.openGates }.complete t .null
  | .newReference label reference object kind queue =>
    w.withEngine t label fun e _ => w.withObject t object fun r =>
      match queue with
      | none => w.performNewReference t e reference kind r none
      | some q =>
        w.withQueue t (some q) fun w q => w.performNewReference t e reference kind r (some q)
  | .getReferent reference bind => w.withReference t reference fun h _ =>
      match w.getReferent h with
      | (none, same) => same.complete t .null
      | (some r, held) => (held.bindObject? bind r).complete t (.object r.object)
  | .referenceInfo reference queue => w.withReference t reference fun _ r =>
      let shown := { r with id := w.numberShown r.id }
      match queue with
      | none => w.complete t (.referenceInfo shown (r.queue.map fun _ => false))
      | some queue => w.withQueue t (some queue) fun w q =>
          w.complete t (.referenceInfo shown (r.queue.map fun own => decide (own = q)))
  | .clearReference reference => w.withReference t reference fun h _ =>
      (w.modifyReference h Heap.clearReference).complete t .null
  | .cloneReference reference bind =>
    w.withReference t reference fun h _ => w.performCloneReference t h bind
  | .enqueue reference =>
    w.withReference t reference fun h _ => (w.push t [.finish .plain]).beginEnqueue t h
  | .refersTo reference object =>
      match w.names.references.get? reference, w.names.objects.get? object with
      | some h, some r =>
          w.complete t (.flag (match w.engines[h.heap]? with
            | some x => x.heap.refersTo h.position r
            | none => false))
      | _, _ => w.refuse t .noReferenceOrObject
  | .dropReference reference => w.performDropReference t reference
  | .sameReference a b =>
      match w.names.references.get? a, w.names.references.get? b with
      | some x, some y => w.complete t (.flag (decide (x = y)))
      | _, _ => w.complete t (.flag false)
  | .poll queue bind =>
    w.withQueue t queue fun w q => w.push t [.pollQueue q, .finish (.entry bind)]
  | .remove queue ms bind => w.withQueue t queue fun w q =>
      w.push t [.blocking .any (.waitOnQueue q ms), .finish (.entry bind)]
  | .queueInfo queue => w.withQueue t queue fun w q =>
      match w.queues[q]? with
      | some queue => w.complete t (.queue queue)
      | none => w.refuse t .noQueue
  | .dropQueue queue =>
      match w.names.queues.get? queue with
      | none => w.complete t (.flag false)
      | some _ =>
          ({ w with names := { w.names with queues := w.names.queues.erase queue } }).complete t
            (.flag true)
  | .attach label name => w.withEngine t label fun e _ =>
      ((w.retainEngine e).push t [.conclude e .plain]).attach t e name false
  | .detach => w.performDetach t
  | .safepoint =>
    w.withAttachment t fun a => (w.push t [.finish (.other .null)]).checkpoint t a.engine
  | .selfInfo => w.withAttachment t fun a =>
      match w.engines[a.engine]? with
      | none => w.refuse t .notAttached
      | some x => w.complete t (answerExcept .selfInfo (x.registry.find a.id))
  | .isInterrupted => w.withAttachment t fun _ => w.complete t (.flag (w.isInterrupted t))
  | .takeInterrupt =>
    w.withAttachment t fun _ => (w.clearInterrupt t).complete t (.flag (w.isInterrupted t))
  | .checkSafepoint label => w.withEngine t label fun e _ =>
      w.call t e [.checkpoint e] (.other .null)
  | .enterBlocking => w.withAttachment t fun _ => w.performEnterBlocking t
  | .leaveBlocking label => w.performLeaveBlocking t label
  | .stopWorld label initiator => w.withEngine t label fun e _ =>
      w.push t [.registry e (.stopWorld initiator), .finish (.worldStopped e)]
  | .releaseWorld label => w.performReleaseWorld t label
  | .suspend label id => w.withEngine t label fun e _ => w.call t e (suspendTasks e id) .plain
  | .resume label id => w.withEngine t label fun e _ => w.call t e (resumeTasks e id) .plain
  | .requestSuspend label id times => w.withEngine t label fun e _ =>
      w.call t e [.reply .unit, .repeatSuspend e id times] .plain
  | .requestResume label id =>
    w.withEngine t label fun e _ => w.call t e [.registry e (.resume id)] .plain
  | .interrupt label id => w.withEngine t label fun e _ => w.call t e [.interrupt e id] .plain
  | .isSuspended label id => w.withEngine t label fun _ x =>
      w.complete t (answerExcept (fun m => .flag m.isSuspended) (x.registry.find id))
  | .awaitSuspension label id ms => w.withEngine t label fun e _ =>
      w.call t e [.registry e (.awaitSuspension id ms)] .plain
  | .threadInfo label id => w.withEngine t label fun _ x =>
      w.complete t (answerExcept .mutator (x.registry.find id))
  | .threads label => w.withEngine t label fun _ x => w.complete t (.mutators x.registry.mutators)
  | .safepoints label => w.withEngine t label fun _ x => w.complete t
      (.safepoints x.registry.mutators.length x.registry.worldStopped x.registry.reached)
  | .registerAgent label agent c listens gate => w.withEngine t label fun e x =>
      w.performRegisterAgent t e x agent c listens gate
  | .agentInfo agent => w.withAgent t agent fun a => w.complete t (.agent a)
  | .dropAgent agent => w.performDropAgent t agent
  | .agentSuspend agent id =>
    w.withAgent t agent fun a => w.controlCall t a (suspendTasks a.engine id)
  | .agentResume agent id =>
    w.withAgent t agent fun a => w.controlCall t a (resumeTasks a.engine id)
  | .agentAwait agent id ms => w.withAgent t agent fun a =>
      w.controlCall t a [.registry a.engine (.awaitSuspension id ms)]
  | .agentThreadInfo agent id => w.withAgent t agent fun a =>
      match w.engines[a.engine]? with
      | none => w.refuse t .noAgent
      | some x => w.complete t (answerExcept .mutator (x.registry.find id))
  | .agentThreads agent => w.withAgent t agent fun a =>
      match w.engines[a.engine]? with
      | none => w.refuse t .noAgent
      | some x => w.complete t (.mutators x.registry.mutators)
  | .foreign call => w.performForeign t call
  | .unknown label => w.withEngine t label fun _ _ => w.refuse t .noSuchStep

end World

end ManagedHeap
