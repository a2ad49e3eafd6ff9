import ManagedHeap.Machine.Lifecycle

/-!
# From names to things, and from values to answers

An instruction speaks of things by name.  Here names are looked up, and what is not there is
refused; and the value of a call is bound to a name and shown.
-/

namespace ManagedHeap

namespace World

section Lookup

/-- Refuses the instruction that a thread is in. -/
def refuse (w : World) (t : Nat) (r : Refusal) : World := w.complete t (.refused r)

def withEngine (w : World) (t : Nat) (label : String) (go : Nat → Runtime → World) : World :=
  match w.names.engines.get? label with
  | none => w.refuse t .noEngine
  | some e =>
      match w.engines[e]? with
      | none => w.refuse t .noEngine
      | some x => go e x

def withObject (w : World) (t : Nat) (label : String) (go : Root → World) : World :=
  match w.names.objects.get? label with
  | none => w.refuse t .noObject
  | some r => go r

def withReference (w : World) (t : Nat) (label : String) (go : Handle → Reference → World) :
    World :=
  match w.names.references.get? label with
  | none => w.refuse t .noReference
  | some h =>
      match w.reference? h with
      | none => w.refuse t .noReference
      | some r => go h r

/-- Goes on with the queue of a name, which is made when it is first used. -/
def withQueue (w : World) (t : Nat) (label : Option String) (go : World → Nat → World) : World :=
  match label with
  | none => w.refuse t .noQueue
  | some label =>
      match w.names.queues.get? label with
      | some q => go w q
      | none =>
          let made := { w with
            queues := w.queues.push {}
            names := { w.names with queues := w.names.queues.insert label w.queues.size } }
          go made w.queues.size

def withAgent (w : World) (t : Nat) (label : String) (go : AgentHandle → World) : World :=
  match w.names.agents.get? label with
  | none => w.refuse t .noAgent
  | some a => go a

/-- Goes on with the attachment that a thread made on this side of the foreign boundary. -/
def withAttachment (w : World) (t : Nat) (go : Attachment → World) : World :=
  match w.attachmentOf t with
  | none => w.refuse t .notAttached
  | some a => if a.foreign then w.refuse t .notAttached else go a

/-- Runs a call that holds its engine until its value is bound, then shows the value. -/
def call (w : World) (t e : Nat) (tasks : List Task) (f : Finish) : World :=
  (w.retainEngine e).push t (tasks ++ [.conclude e f])

end Lookup

section Values

def answerOf : Reply → Answer
  | .unit => .null
  | .flag b => .flag b
  | .count n => .number n
  | .change none => .null
  | .change (some n) => .number n
  | .object none => .null
  | .object (some r) => .object r.object
  | .entry _ => .null
  | .report r => .report r
  | .failed e => .failed e
  | .fault f => .fault f

def answerExcept {α : Type} (f : α → Answer) : Except Error α → Answer
  | .ok a => f a
  | .error e => .failed e

/-- Binds an object on the other side of the foreign boundary, or releases it. -/
def bindForeign (w : World) (name : Option String) (r : Root) : World :=
  match name with
  | none => w.dropRoot r
  | some n =>
      let old := w.names.foreignObjects.get? n
      let bound :=
        { w with names := { w.names with foreignObjects := w.names.foreignObjects.insert n r } }
      match old with
      | some o => bound.dropRoot o
      | none => bound

/-- Binds a reference on the other side of the foreign boundary; the handle that the name had is
released. -/
def bindForeignReference (w : World) (name : String) (h : Handle) : World :=
  let old := w.names.foreignReferences.get? name
  let bound := { w with names :=
        { w.names with foreignReferences := w.names.foreignReferences.insert name h } }
  match old with
  | some o => bound.modifyReference o Heap.release
  | none => bound

/-- Reports a failure on the other side of the foreign boundary. -/
def reportFailure (w : World) (action : String) (e : Error) : World :=
  w.report [⟨.error, action ++ " failed: " ++ e.message⟩]

/-- Binds the value of a call; the answer that shows it comes with the world. -/
def bindValue (w : World) (t : Nat) (f : Finish) : Answer × World :=
  let reply := w.replyOf t
  match f with
  | .plain => (answerOf reply, w)
  | .other a => (a, w)
  | .object bind =>
      match reply with
      | .object (some r) => (.object r.object, w.bindObject? bind r)
      | reply => (answerOf reply, w)
  | .entry bind =>
      match reply with
      | .entry (some h) =>
          let shown : Answer :=
            match w.reference? h with
            | some r => .reference (w.numberShown r.id) r.kind r.stage
            | none => .null
          let bound :=
            match bind with
            | some name => w.bindReference name h
            | none => w.modifyReference h Heap.release
          (shown, bound)
      | reply => (answerOf reply, w)
  | .worldStopped e =>
      match reply with
      | .count n =>
        (.worldStopped n, w.modifyThread t fun x => { x with scopes := .world e :: x.scopes })
      | reply => (answerOf reply, w)
  | .foreignFlag action =>
      match reply with
      | .failed e => (.flag false, w.reportFailure action e)
      | .flag b => (.flag b, w)
      | _ => (.flag true, w)
  | .foreignCount action =>
      match reply with
      | .failed e => (.minusOne, w.reportFailure action e)
      | reply => (answerOf reply, w)
  | .foreignObject size bind =>
      match reply with
      | .object (some r) => (.handle true, w.bindForeign bind r)
      | .failed e =>
        (.handle false, w.reportFailure ("GC allocation of " ++ toString size ++ " bytes") e)
      | reply => (answerOf reply, w)
  | .foreignAttach =>
      match reply with
      | .failed e => (.number 0, w.reportFailure "thread attach" e)
      | reply => (answerOf reply, w)

/-- Ends an instruction with the value of its call. -/
def finish (w : World) (t : Nat) (f : Finish) : World :=
  let shown := w.bindValue t f
  shown.2.complete t shown.1

/-- Ends an instruction that holds an engine: its value is bound before the handle is given back. -/
def conclude (w : World) (t e : Nat) (f : Finish) : World :=
  let shown := w.bindValue t f
  shown.2.push t [.releaseEngine e, .finish (.other shown.1)]

end Values

end World

end ManagedHeap
