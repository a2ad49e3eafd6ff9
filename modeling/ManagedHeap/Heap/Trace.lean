import ManagedHeap.Heap.Space

/-!
# Tracing

**Input.**  A space, perhaps partly marked already, and names from which to trace.

**Algorithm.**  A worklist of marked records whose fields are still to be followed.  Visiting a name
marks its record if there is one and it is unmarked, and puts it on the list; draining takes a name
off the list and visits its fields.  Twice the number of unmarked records plus the length of the
list goes down with every name taken off.

**Results.**  `Trace.markRoots` marks what roots reach, `Trace.markFrom` what a name reaches; both
count the records and bytes they mark.
-/

namespace ManagedHeap

namespace Space

variable {φ : Type}

def unmarked (s : Space φ) : Nat := s.slots.toList.countP fun slot => slot.garbage?.isSome

/-- Changing one element of a list so that it no longer satisfies a test lowers the count by one. -/
theorem countP_modify_of_neg {α : Type} (p : α → Bool) (f : α → α) (l : List α) (i : Nat) (a : α)
    (hi : l[i]? = some a) (ha : p a = true) (hf : p (f a) = false) :
    (l.modify i f).countP p + 1 = l.countP p := by
  induction l generalizing i with
  | nil => simp at hi
  | cons b l ih =>
    cases i with
    | zero =>
      simp only [List.getElem?_cons_zero, Option.some.injEq] at hi
      subst hi
      simp [List.modify_zero_cons, ha, hf]
    | succ i =>
      simp only [List.getElem?_cons_succ] at hi
      have h := ih i hi
      simp only [List.modify_succ_cons, List.countP_cons]
      omega

/-- Marking an unmarked record leaves one unmarked record less. -/
theorem unmarked_mark (s : Space φ) (id : ObjectId) (r : Record φ) (hr : s.get? id = some r)
    (hm : r.header.marked = false) : (s.mark id).unmarked + 1 = s.unmarked := by
  unfold get? at hr
  split at hr
  case h_2 => simp at hr
  case h_1 slot hslot =>
    split at hr
    case isFalse => simp at hr
    case isTrue hg =>
      have hlive : s.contains id = true := by simp [contains, get?, hslot, hg, hr]
      simp only [unmarked, mark, update, hlive, if_true, Array.toList_modify]
      refine countP_modify_of_neg _ _ _ id.index slot ?_ ?_ ?_
      · simpa using hslot
      · simp [Slot.garbage?, hr, hm]
      · simp [Slot.garbage?, hr, Header.mark]

end Space

/-- A trace in progress. -/
structure Trace (φ : Type) where
  space : Space φ
  /-- Marked records whose fields are still to be followed. -/
  work : List ObjectId := []
  /-- Records marked by this trace. -/
  objects : Nat := 0
  /-- Bytes of the records marked by this trace. -/
  bytes : Nat := 0

namespace Trace

variable {φ : Type}

def weight (t : Trace φ) : Nat := 2 * t.space.unmarked + t.work.length

/-- Marks the record under a name, if there is one and it is unmarked, and puts it on the list. -/
def visit (t : Trace φ) (id : ObjectId) : Trace φ :=
  match t.space.get? id with
  | none => t
  | some r =>
      if r.header.marked then t
      else ⟨t.space.mark id, id :: t.work, t.objects + 1, t.bytes + r.header.size⟩

def children (t : Trace φ) (id : ObjectId) : List ObjectId :=
  match t.space.get? id with
  | none => []
  | some r => r.fields.toList.filterMap fun child => child

/-- A visit never makes a trace heavier. -/
theorem weight_visit_le (t : Trace φ) (id : ObjectId) : (t.visit id).weight ≤ t.weight := by
  unfold visit
  split
  · exact Nat.le_refl _
  · rename_i r hr
    split
    · exact Nat.le_refl _
    · rename_i hm
      have h := Space.unmarked_mark t.space id r hr (by simpa using hm)
      simp only [weight, List.length_cons]
      omega

/-- Nor does a sequence of visits. -/
theorem weight_foldl_visit_le (ids : List ObjectId) (t : Trace φ) :
    (ids.foldl visit t).weight ≤ t.weight := by
  induction ids generalizing t with
  | nil => exact Nat.le_refl _
  | cons id ids ih => exact Nat.le_trans (ih (t.visit id)) (weight_visit_le t id)

/-- Taking a name off the list and visiting its fields makes a trace lighter. -/
theorem weight_follow_lt (t : Trace φ) (id : ObjectId)
    (rest : List ObjectId) (h : t.work = id :: rest) :
    ((t.children id).foldl visit { t with work := rest }).weight < t.weight := by
  refine Nat.lt_of_le_of_lt (weight_foldl_visit_le _ _) ?_
  simp [weight, h]

/-- Follows fields until nothing is left on the list. -/
def drain (t : Trace φ) : Trace φ :=
  match h : t.work with
  | [] => t
  | id :: rest =>
      have := weight_follow_lt t id rest h
      drain ((t.children id).foldl visit { t with work := rest })
termination_by t.weight

def markFrom (t : Trace φ) (id : ObjectId) : Trace φ := (t.visit id).drain

/-- Marks everything that the given names reach. -/
def markAll (t : Trace φ) (ids : List ObjectId) : Trace φ := (ids.foldl visit t).drain

/-- The records with at least one root, in the order of their slots. -/
def rooted (s : Space φ) : List ObjectId :=
  s.ids.filter fun id =>
    match s.get? id with
    | some r => decide (0 < r.roots)
    | none => false

def markRoots (s : Space φ) : Trace φ := markAll ⟨s, [], 0, 0⟩ (rooted s)

end Trace

end ManagedHeap
