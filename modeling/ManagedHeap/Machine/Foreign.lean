import ManagedHeap.Machine.Lookup

/-!
# Calls across the foreign boundary

A caller on the other side sees handles and numbers.  A null handle gives null, zero, a negative
number or false at once; a failure gives the same and is reported as an error in the log.
-/

namespace ManagedHeap

namespace World

/-- Goes on with the engine of a handle; a null handle gives the answer at once. -/
def withForeign (w : World) (t : Nat) (label : String) (absent : Answer)
    (go : Nat → Runtime → World) : World :=
  match w.names.foreignEngines.get? label with
  | none => w.complete t absent
  | some e =>
      match w.engines[e]? with
      | none => w.complete t absent
      | some x => go e x

def withForeignObject (w : World) (t : Nat) (label : String) (absent : Answer) (go : Root → World) :
    World :=
  match w.names.foreignObjects.get? label with
  | none => w.complete t absent
  | some r => go r

/-- Performs a call across the foreign boundary. -/
def performForeign (w : World) (t : Nat) : ForeignCall → World
  | .create label settings =>
      match w.makeEngine settings .unreachable with
      | .error e =>
          (w.report [⟨.error, "failed to create GC runtime: " ++ e.message⟩]).complete t
            (.handle false)
      | .ok (e, made) =>
          match made.startEngine e with
          | .error err =>
              (made.report [⟨.error, "failed to start GC runtime: " ++ err.message⟩]).complete t
                (.handle false)
          | .ok ready =>
              let bound := { ready with names :=
                { ready.names with foreignEngines := ready.names.foreignEngines.insert label e } }
              match w.names.foreignEngines.get? label with
              | some old =>
                bound.push t [.stopEngine old, .releaseEngine old, .finish (.other (.handle true))]
              | none => bound.complete t (.handle true)
  | .destroy label =>
      w.withForeign t label .null fun e _ =>
        ({ w with names := { w.names with foreignEngines := w.names.foreignEngines.erase label }
          }).push t [.stopEngine e, .releaseEngine e, .finish (.other .null)]
  | .collect label =>
      w.withForeign t label (.flag false) fun e _ =>
        w.call t e [.collectOpen e] (.foreignFlag "collection")
  | .finalize label ms =>
      w.withForeign t label (.flag false) fun e _ => w.call t e [.runFinalization e ms] .plain
  | .pending label =>
    w.withForeign t label (.number 0) fun _ x => w.complete t (.number x.finalization.pending)
  | .allocate label size fields bind =>
      w.withForeign t label (.handle false) fun e _ =>
        w.call t e [.allocate e ⟨size, fields, none⟩] (.foreignObject size bind)
  | .release label =>
      w.withForeignObject t label .null fun r =>
        (({ w with names := { w.names with foreignObjects := w.names.foreignObjects.erase label }
          }).dropRoot r).complete t .null
  | .setField label object index value =>
      w.withForeign t label (.flag false) fun e x =>
        w.withForeignObject t object (.flag false) fun r =>
        match x.heap.setField r index (value.bind w.names.foreignObjects.get?) with
        | .ok heap => (w.modifyHeap e fun _ => heap).complete t (.flag true)
        | .error err => (w.reportFailure "set_field" err).complete t (.flag false)
  | .getField label object index bind =>
      w.withForeign t label (.handle false) fun e x =>
        w.withForeignObject t object (.handle false) fun r =>
        match x.heap.getField r index with
        | .ok (some child, heap) =>
            ((w.modifyHeap e fun _ => heap).bindForeign bind child).complete t (.handle true)
        | .ok (none, _) => w.complete t (.handle false)
        | .error err => (w.reportFailure "get_field" err).complete t (.handle false)
  | .newWeak label object reference =>
      w.withForeign t label (.handle false) fun e x =>
        w.withForeignObject t object (.handle false) fun r =>
        match x.heap.newReference w.nextReference .weak r none with
        | .error err => (w.reportFailure "weak reference creation" err).complete t (.handle false)
        | .ok (i, heap) =>
            let made := { w.modifyHeap e fun _ => heap with nextReference := w.nextReference + 1 }
            (made.bindForeignReference reference ⟨e, i⟩).complete t (.handle true)
  | .getReferent reference bind =>
      match w.names.foreignReferences.get? reference with
      | none => w.complete t (.handle false)
      | some h =>
          match w.getReferent h with
          | (none, same) => same.complete t (.handle false)
          | (some r, held) => (held.bindForeign bind r).complete t (.handle true)
  | .releaseReference reference =>
      match w.names.foreignReferences.get? reference with
      | none => w.complete t .null
      | some h =>
          (({ w with names := { w.names with
              foreignReferences := w.names.foreignReferences.erase reference } }).modifyReference h
            Heap.release).complete t .null
  | .attach label name =>
      w.withForeign t label (.number 0) fun e _ => ((w.retainEngine e).push t
        [.conclude e .foreignAttach]).attach t e (name.getD "native") true
  | .detach => (w.push t [.finish .plain]).detach t true
  | .poll =>
      match w.attachmentOf t with
      | some a =>
          if a.foreign then (w.push t [.finish (.other .null)]).checkpoint t a.engine
            else w.complete t .null
      | none => w.complete t .null
  | .suspend label id =>
      w.withForeign t label .minusOne fun e _ =>
        w.call t e (suspendTasks e id) (.foreignCount "suspend")
  | .resume label id =>
      w.withForeign t label .minusOne fun e _ =>
        w.call t e (resumeTasks e id) (.foreignCount "resume")
  | .suspendCount label id =>
      w.withForeign t label .minusOne fun _ x =>
        match x.registry.find id with
        | .ok m => w.complete t (.number m.suspendCount)
        | .error err => (w.reportFailure "suspend count" err).complete t .minusOne
  | .interrupt label id =>
      w.withForeign t label (.flag false) fun e _ =>
        w.call t e [.interrupt e id] (.foreignFlag "interrupt")

end World

end ManagedHeap
