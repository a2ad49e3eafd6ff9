import ManagedHeap.Collection.Policy
import ManagedHeap.Heap.Basic

/-!
# The pause

**Input.**  A heap whose threads stand still, the settings and the reason of the collection.

**Algorithm.**  Mark what roots reach.  Of the soft references to unmarked objects the policy keeps
some, and what they hold is marked; the others, and the weak references, lose their objects if these
are still unmarked.  Then unmarked objects with a finalizer give it up; where finalization is on
they are marked with all that they hold, so that the finalizers can use it.  Phantom references lose
what is unmarked even now, and the sweep takes it away.

**Results.**  `Heap.pause`: the heap afterwards, the references that wait for their queues, the
finalizers to run and to drop, and the counts for the report.
-/

namespace ManagedHeap

/-- A finalizer to run, with the root that keeps its object. -/
structure Job (φ : Type) where
  object : Root
  finalizer : φ

/-- What a pause leaves to be done once the threads run again. -/
structure PauseOutcome (φ : Type) where
  heap : Heap φ
  /-- Positions of the references that lost their objects, soft, weak and phantom ones. -/
  pending : List Nat
  jobs : List (Job φ)
  /-- Finalizers that are dropped without running, with their objects. -/
  discarded : List (ObjectId × φ)
  markedObjects : Nat
  reclaimedObjects : Nat
  reclaimedBytes : Nat
  softCleared : Nat
  weakCleared : Nat
  phantomCleared : Nat
  /-- Share of the heap that roots reach. -/
  utilization : Numeral.Value
  /-- Whether the policy gave up every soft reference. -/
  clearAll : Bool

namespace Heap

variable {φ : Type}

section References

/-- The references that a collection looks at, with their positions. -/
def tracked (h : Heap φ) : List (Nat × Reference) :=
  h.registered.filterMap fun i =>
    match h.references[i]? with
    | some r => if r.isTracked then some (i, r) else none
    | none => none

def ofKind (kind : ReferenceKind) (refs : List (Nat × Reference)) : List (Nat × Reference) :=
  refs.filter fun r => decide (r.2.kind = kind)

/-- Whether a reference names an unmarked object. -/
def isLost (s : Space φ) (r : Reference) : Bool :=
  match r.referent with
  | some id => !s.isMarked id
  | none => false

/-- Goes through the soft references: marks from an unmarked object that the policy keeps, and
answers the references that it gives up. -/
def retainSoft (policy : SoftPolicy) (t : Trace φ) : List (Nat × Reference) →
    Trace φ × List (Nat × Reference)
  | [] => (t, [])
  | r :: rest =>
      match r.2.referent with
      | none => retainSoft policy t rest
      | some id =>
          if t.space.isMarked id then retainSoft policy t rest
          else if policy.gives r.2 then
            let after := retainSoft policy t rest
            (after.1, r :: after.2)
          else retainSoft policy (t.markFrom id) rest

/-- Positions of the references whose objects are unmarked. -/
def lost (s : Space φ) (refs : List (Nat × Reference)) : List Nat :=
  (refs.filter fun r => isLost s r.2).map Prod.fst

/-- Clears references and makes them pending; the list of pending references holds on to them. -/
def makePending (references : Array Reference) (positions : List Nat) : Array Reference :=
  positions.foldl (fun refs i => refs.modify i fun r =>
    { r.makePending.2 with handles := r.handles + 1 }) references

end References

section Finalizers

/-- Unmarked objects whose finalizer was not taken, in the order of their slots. -/
def finalizable (s : Space φ) : List ObjectId :=
  s.ids.filter fun id =>
    match s.get? id with
    | some r => !r.header.marked && r.header.finalizable
    | none => false

/-- Takes the finalizers of objects; an object whose finalizer is not going to run has finished with
it at once. -/
def takeFinalizers (enabled : Bool) (s : Space φ) : List ObjectId → Space φ × List (ObjectId × φ)
  | [] => (s, [])
  | id :: ids =>
      match (s.get? id).bind (·.finalizer) with
      | none => takeFinalizers enabled (s.update id fun r =>
            { r with header := r.header.scheduleFinalizer }) ids
      | some f =>
          let taken := s.update id fun r =>
            { r with
              header := if enabled then r.header.scheduleFinalizer
                else r.header.scheduleFinalizer.finishFinalizer
              finalizer := none }
          let after := takeFinalizers enabled taken ids
          (after.1, (id, f) :: after.2)

end Finalizers

/-- The part of a collection during which all threads stand still. -/
def pause (h : Heap φ) (settings : Settings) (reason : Reason) : PauseOutcome φ :=
  let strong := Trace.markRoots h.space
  let utilization := (Numeral.Format.double.ofNat strong.bytes).div .double
      (Numeral.Format.double.ofNat h.space.capacity)
  let policy := SoftPolicy.ofSettings settings reason utilization h.clock
  let refs := h.tracked
  let softly := retainSoft policy strong (ofKind .soft refs)
  let softLost := lost softly.1.space softly.2
  let weakLost := lost softly.1.space (ofKind .weak refs)
  let taken := takeFinalizers settings.finalizerEnabled softly.1.space (finalizable softly.1.space)
  let toRun := if settings.finalizerEnabled then taken.2 else []
  let toDrop := if settings.finalizerEnabled then [] else taken.2
  let final := toRun.foldl (fun t job => t.markFrom job.1) { softly.1 with space := taken.1 }
  let phantomLost := lost final.space (ofKind .phantom refs)
  let found := toRun.filter fun job => final.space.contains job.1
  let orphaned := toRun.filter fun job => !final.space.contains job.1
  let pinned := found.foldl (fun s job => s.pin job.1) final.space
  let pending := softLost ++ weakLost ++ phantomLost
  { heap :=
      { h with
        space := pinned.sweep
        references := makePending h.references pending
        registered := refs.map Prod.fst
        clock := h.clock + 1 }
    pending := pending
    jobs := found.map fun job => ⟨⟨h.key, job.1⟩, job.2⟩
    discarded := toDrop ++ orphaned
    markedObjects := final.objects
    reclaimedObjects := pinned.garbage.length
    reclaimedBytes := pinned.garbageBytes
    softCleared := softLost.length
    weakCleared := weakLost.length
    phantomCleared := phantomLost.length
    utilization := utilization
    clearAll := policy.clearAll }

end Heap

end ManagedHeap
