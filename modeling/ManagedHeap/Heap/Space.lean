import ManagedHeap.Object.Header
import ManagedHeap.Object.Identity

/-!
# The object space

**Input.**  Records to store, and names of stored records.

**Algorithm.**  A slab of slots with a stack of vacant ones.  A slot counts generations: a record is
found under the index of its slot and the generation at which it was stored, and emptying the slot
moves it to the next generation, so an old name does not find a later record.  Generations are
32-bit words that skip zero.

**Results.**  `Space.insert`, `Space.get?`, `Space.update` and `Space.sweep`, which empties the
slots of all unmarked records and unmarks the others.
-/

namespace ManagedHeap

/-- A stored object; `φ` is the type of finalizers. -/
structure Record (φ : Type) where
  header : Header
  fields : Array (Option ObjectId)
  finalizer : Option φ
  /-- Number of outstanding roots. -/
  roots : Nat

/-- A place for a record. -/
structure Slot (φ : Type) where
  generation : Nat
  record : Option (Record φ)

/-- A bounded space of records. -/
structure Space (φ : Type) where
  slots : Array (Slot φ)
  /-- Indices of vacant slots, the next one to be used first. -/
  free : List Nat
  usedBytes : Nat
  liveObjects : Nat
  capacity : Nat

/-- The generation after `g`, a 32-bit word that is never zero. -/
def nextGeneration (g : Nat) : Nat := if g + 1 < UInt32.size then g + 1 else 1

namespace Space

variable {φ : Type}

def empty (capacity : Nat) : Space φ := ⟨#[], [], 0, 0, capacity⟩

def available (s : Space φ) : Nat := s.capacity - s.usedBytes

def canFit (s : Space φ) (size : Nat) : Bool := size ≤ s.available

section Access

def get? (s : Space φ) (id : ObjectId) : Option (Record φ) :=
  match s.slots[id.index]? with
  | some slot => if slot.generation = id.generation then slot.record else none
  | none => none

def contains (s : Space φ) (id : ObjectId) : Bool := (s.get? id).isSome

/-- Changes the record stored under a name; without one nothing changes. -/
def update (s : Space φ) (id : ObjectId) (f : Record φ → Record φ) : Space φ :=
  if s.contains id then
    { s with slots := s.slots.modify id.index fun slot =>
      { slot with record := slot.record.map f } }
  else s

/-- The names of all records, in the order of their slots. -/
def ids (s : Space φ) : List ObjectId :=
  s.slots.toList.zipIdx.filterMap fun (slot, i) => slot.record.map fun _ => ⟨i, slot.generation⟩

/-- The name under which the next record is stored: the slot that was vacated last, or a new one. -/
def nextId (s : Space φ) : ObjectId :=
  match s.free with
  | [] => ⟨s.slots.size, 1⟩
  | index :: _ =>
      match s.slots[index]? with
      | some slot => ⟨index, slot.generation⟩
      | none => ⟨index, 1⟩

def insert (s : Space φ) (r : Record φ) : Space φ where
  slots :=
    match s.free with
    | [] => s.slots.push ⟨1, some r⟩
    | index :: _ => s.slots.modify index fun slot => { slot with record := some r }
  free := s.free.drop 1
  usedBytes := s.usedBytes + r.header.size
  liveObjects := s.liveObjects + 1
  capacity := s.capacity

end Access

section Roots

/-- One more root on the record under a name. -/
def pin (s : Space φ) (id : ObjectId) : Space φ :=
  s.update id fun r => { r with roots := r.roots + 1 }

/-- Whether the record under a name has no roots. -/
def isUnrooted (s : Space φ) (id : ObjectId) : Bool :=
  match s.get? id with
  | some r => r.roots = 0
  | none => false

/-- One root less on the record under a name. -/
def unpin (s : Space φ) (id : ObjectId) : Space φ :=
  s.update id fun r => { r with roots := r.roots - 1 }

end Roots

section Marks

/-- Whether the record under a name is marked. -/
def isMarked (s : Space φ) (id : ObjectId) : Bool :=
  match s.get? id with
  | some r => r.header.marked
  | none => false

def mark (s : Space φ) (id : ObjectId) : Space φ :=
  s.update id fun r => { r with header := r.header.mark }

end Marks

end Space

namespace Slot

variable {φ : Type}

/-- The record that a sweep takes out of the slot. -/
def garbage? (s : Slot φ) : Option (Record φ) := s.record.filter fun r => !r.header.marked

/-- The slot after a sweep: a marked record is unmarked, an unmarked one is gone. -/
def swept (s : Slot φ) : Slot φ :=
  match s.record with
  | none => s
  | some r =>
      if r.header.marked then { s with record := some { r with header := r.header.unmark } }
      else ⟨nextGeneration s.generation, none⟩

end Slot

namespace Space

variable {φ : Type}

/-- The records that a sweep takes out, in the order of their slots. -/
def garbage (s : Space φ) : List (Record φ) := s.slots.toList.filterMap Slot.garbage?

/-- Indices of the slots that a sweep empties, ascending. -/
def vacated (s : Space φ) : List Nat :=
  s.slots.toList.zipIdx.filterMap fun (slot, i) => slot.garbage?.map fun _ => i

/-- Bytes of the records that a sweep takes out. -/
def garbageBytes (s : Space φ) : Nat := s.garbage.foldr (fun r n => r.header.size + n) 0

/-- Takes out every unmarked record and unmarks the others. -/
def sweep (s : Space φ) : Space φ where
  slots := s.slots.map Slot.swept
  free := s.vacated.reverse ++ s.free
  usedBytes := s.usedBytes - s.garbageBytes
  liveObjects := s.liveObjects - s.garbage.length
  capacity := s.capacity

end Space

end ManagedHeap
