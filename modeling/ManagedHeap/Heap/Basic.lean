import ManagedHeap.Error
import ManagedHeap.Heap.Reference
import ManagedHeap.Heap.Trace
import ManagedHeap.Numeral.Binary
import ManagedHeap.Numeral.Literal

/-!
# Heaps

**Input.**  Roots, which name an object together with the heap that owns it, and handles of
references.

**Algorithm.**  A heap is an object space with the references made on it and a clock that counts
collections.  Every operation here is one critical section: it sees a heap and leaves a heap.  A
root of another heap is refused before anything else is looked at.

**Results.**  Allocation, field access, roots and references.
-/

namespace ManagedHeap

/-- A counted handle that keeps an object alive. -/
structure Root where
  /-- The heap that owns the object. -/
  heap : Nat
  object : ObjectId
  deriving DecidableEq, Repr

def Root.inspect (r : Root) : String := "Root(" ++ r.object.inspect ++ ")"

/-- An object space with its references. -/
structure Heap (φ : Type) where
  /-- Which heap this is. -/
  key : Nat
  space : Space φ
  /-- All references made on this heap. -/
  references : Array Reference := #[]
  /-- Positions of the references that the next collection looks at, in the order of creation. -/
  registered : List Nat := []
  /-- Number of finished collections. -/
  clock : Nat := 0
  /-- Bytes allocated so far, modulo `2 ^ 64`. -/
  totalAllocated : Nat := 0
  /-- Number of roots that were copied after their object was gone, or given back though their
  object had none. -/
  faults : Nat := 0

namespace Heap

variable {φ : Type}

def empty (key capacity : Nat) : Heap φ := { key := key, space := Space.empty capacity }

section Objects

def owns (h : Heap φ) (r : Root) : Bool := r.heap = h.key

/-- The root of the next object to be stored. -/
def nextRoot (h : Heap φ) : Root := ⟨h.key, h.space.nextId⟩

/-- Stores a new object with one root and empty fields; its bytes have to fit. -/
def store (h : Heap φ) (size fields : Nat) (finalizer : Option φ) : Heap φ :=
  { h with
    space :=
      h.space.insert ⟨Header.fresh size finalizer.isSome, Array.replicate fields none, finalizer, 1⟩
    totalAllocated := (h.totalAllocated + size) % Numeral.wordLimit }

def record (h : Heap φ) (r : Root) : Except Error (Record φ) :=
  if !h.owns r then .error (.invalidObject r.object)
  else
    match h.space.get? r.object with
    | some record => .ok record
    | none => .error (.invalidObject r.object)

/-- One more root on an object, which has to be there. -/
def pin (h : Heap φ) (id : ObjectId) : Heap φ :=
  { h with space := h.space.pin id, faults := if h.space.contains id then h.faults
    else h.faults + 1 }

/-- One root less on an object, which has to have one. -/
def unpin (h : Heap φ) (id : ObjectId) : Heap φ :=
  { h with space := h.space.unpin id, faults := if h.space.isUnrooted id then h.faults + 1
    else h.faults }

def getField (h : Heap φ) (r : Root) (index : Nat) : Except Error (Option Root × Heap φ) := do
  let record ← h.record r
  match record.fields[index]? with
  | none => .error (.boundsCheckFailed index record.fields.size)
  | some none => .ok (none, h)
  | some (some child) =>
      if h.space.contains child then .ok (some ⟨h.key, child⟩, h.pin child)
      else .ok (none, h)

/-- Whether an object, or nothing, can be stored in a field: both roots are of this heap, and the
field is there. -/
def checkField (h : Heap φ) (r : Root) (index : Nat) (value : Option Root) : Except Error Unit := do
  if !h.owns r then throw (.invalidObject r.object)
  match value with
  | some v => if !h.owns v then throw (.invalidObject v.object)
  | none => pure ()
  let record ← h.record r
  if record.fields.size ≤ index then throw (.boundsCheckFailed index record.fields.size)

def writeField (h : Heap φ) (r : Root) (index : Nat) (value : Option ObjectId) : Heap φ :=
  { h with space := h.space.update r.object fun record =>
    { record with fields := record.fields.setIfInBounds index value } }

/-- Stores an object, or nothing, in a field. -/
def setField (h : Heap φ) (r : Root) (index : Nat) (value : Option Root) : Except Error (Heap φ) :=
  (h.checkField r index value).map fun _ => h.writeField r index (value.map (·.object))

def fieldCount (h : Heap φ) (r : Root) : Except Error Nat := (h.record r).map (·.fields.size)

def sizeOf (h : Heap φ) (r : Root) : Except Error Nat := (h.record r).map (·.header.size)

def isLive (h : Heap φ) (id : ObjectId) : Bool := h.space.contains id

/-- Whether the finalizer of an object was taken and has not finished. -/
def isFinalizerPending (h : Heap φ) (id : ObjectId) : Bool :=
  match h.space.get? id with
  | some r => r.header.pending
  | none => false

/-- The taken finalizer of an object has finished. -/
def finishFinalization (h : Heap φ) (id : ObjectId) : Heap φ :=
  { h with space := h.space.update id fun r => { r with header := r.header.finishFinalizer } }

/-- Share of the capacity in use, in double arithmetic. -/
def utilization (h : Heap φ) : Numeral.Value :=
  (Numeral.Format.double.ofNat h.space.usedBytes).div .double
    (Numeral.Format.double.ofNat h.space.capacity)

def inspect (h : Heap φ) : String :=
  Text.inspectRecord "Heap"
    [("capacity", toString h.space.capacity), ("used_bytes", toString h.space.usedBytes),
      ("objects", toString h.space.liveObjects)]

end Objects

section References

def updateReference (h : Heap φ) (i : Nat) (f : Reference → Reference) : Heap φ :=
  { h with references := h.references.modify i f }

/-- Makes a reference with one handle; the answer is its position. -/
def newReference (h : Heap φ) (id : Nat) (kind : ReferenceKind) (r : Root) (queue : Option Nat) :
    Except Error (Nat × Heap φ) :=
  if !h.owns r then .error (.invalidObject r.object)
  else
    .ok (h.references.size,
      { h with
        references := h.references.push ⟨id, kind, some r.object, .active, queue, h.clock, 1⟩
        registered := h.registered ++ [h.references.size] })

/-- The object of a reference as a new root; a phantom reference never gives it. -/
def getReferent (h : Heap φ) (i : Nat) : Option Root × Heap φ :=
  match h.references[i]? with
  | none => (none, h)
  | some r =>
      match r.kind, r.referent with
      | .phantom, _ => (none, h)
      | _, none => (none, h)
      | kind, some id =>
          if h.space.contains id then
            let used := if kind = .soft then h.updateReference i fun r =>
                { r with lastAccess := h.clock } else h
            (some ⟨h.key, id⟩, used.pin id)
          else (none, h)

/-- Whether a reference names the object of a root. -/
def refersTo (h : Heap φ) (i : Nat) (r : Root) : Bool :=
  h.owns r &&
    match h.references[i]? with
    | some ref => ref.referent == some r.object
    | none => false

def clearReference (h : Heap φ) (i : Nat) : Heap φ := h.updateReference i Reference.clear

/-- Moves a reference from one stage to another if it is in the first. -/
def exchangeStage (h : Heap φ) (i : Nat) (old new : ReferenceStage) : Bool × Heap φ :=
  match h.references[i]? with
  | none => (false, h)
  | some r => ((r.exchange old new).1, h.updateReference i fun r => (r.exchange old new).2)

def retain (h : Heap φ) (i : Nat) : Heap φ :=
  h.updateReference i fun r => { r with handles := r.handles + 1 }

def release (h : Heap φ) (i : Nat) : Heap φ :=
  h.updateReference i fun r => { r with handles := r.handles - 1 }

end References

end Heap

end ManagedHeap
