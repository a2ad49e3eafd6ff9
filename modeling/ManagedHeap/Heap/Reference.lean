import ManagedHeap.Object.Identity

/-!
# References

A reference names an object without keeping it alive.  It starts active; the collector clears it and
makes it pending when its object is lost, then it is put on its queue, or on none, and when it is
taken off the queue it is inactive.  The stage only moves forward, by compare-and-exchange.
-/

namespace ManagedHeap

/-- How strongly a reference holds on to its object. -/
inductive ReferenceKind where
  | soft
  | weak
  | phantom
  deriving DecidableEq, Repr

/-- Where a reference is in its life. -/
inductive ReferenceStage where
  | active
  | pending
  | enqueued
  | inactive
  deriving DecidableEq, Repr

def ReferenceKind.name : ReferenceKind → String
  | .soft => "Soft"
  | .weak => "Weak"
  | .phantom => "Phantom"

namespace ReferenceStage

def name : ReferenceStage → String
  | .active => "Active"
  | .pending => "Pending"
  | .enqueued => "Enqueued"
  | .inactive => "Inactive"

def rank : ReferenceStage → Nat
  | .active => 0
  | .pending => 1
  | .enqueued => 2
  | .inactive => 3

end ReferenceStage

/-- A soft, weak or phantom reference. -/
structure Reference where
  /-- Number of the reference, in the order of creation. -/
  id : Nat
  kind : ReferenceKind
  referent : Option ObjectId
  stage : ReferenceStage
  /-- The queue on which it is put when it is cleared. -/
  queue : Option Nat
  /-- Collections before it was made or last used. -/
  lastAccess : Nat
  /-- Outstanding handles; without one the collector forgets it. -/
  handles : Nat
  deriving DecidableEq, Repr

namespace Reference

/-- Moves from one stage to another if it is in the first; the answer says whether it was. -/
def exchange (r : Reference) (old new : ReferenceStage) : Bool × Reference :=
  if r.stage = old then (true, { r with stage := new }) else (false, r)

def clear (r : Reference) : Reference := { r with referent := none }

/-- The collector's step for a lost object: an active reference is cleared and becomes pending. -/
def makePending (r : Reference) : Bool × Reference :=
  if r.stage = .active then (true, { r with stage := .pending, referent := none }) else (false, r)

/-- Whether a collection has to look at the reference: held, active and not cleared. -/
def isTracked (r : Reference) : Bool :=
  decide (0 < r.handles) && decide (r.stage = .active) && r.referent.isSome

def inspect (r : Reference) : String :=
  Text.inspectRecord "Reference"
    [("id", toString r.id), ("kind", r.kind.name), ("state", r.stage.name),
      ("referent", Text.inspectOption (r.referent.map (·.inspect)))]

end Reference

end ManagedHeap
