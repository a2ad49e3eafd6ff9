import ManagedHeap.Proofs.Pause
import Mathlib.Algebra.BigOperators.Group.Finset.Basic

/-!
# What a trace counts

**Input.**  A trace with an empty worklist whose marked records are closed under fields, and a name
to trace from.

**Algorithm.**  A visit counts a record when it marks it, and no record is marked twice.

**Results.**
* `Trace.Counts`: the records marked since a trace began, as a set, and what they have added to its
counters.
* `Trace.extends_markFrom`: tracing from a name ends, marks exactly what is reached, and counts
exactly what is new.
-/

namespace ManagedHeap

namespace Space

variable {φ : Type} {s s' : Space φ} {id : ObjectId} {r : Record φ}

def footprintOf (s : Space φ) (id : ObjectId) : Nat := (s.get? id).elim 0 (·.header.size)

theorem footprintOf_plain : s.plain.footprintOf id = s.footprintOf id := by
  unfold footprintOf
  rw [get?_plain]
  cases s.get? id <;> rfl

theorem footprintOf_of_plain_eq (hp : s'.plain = s.plain) (id : ObjectId) :
    s'.footprintOf id = s.footprintOf id := by
  rw [← footprintOf_plain, hp, footprintOf_plain]

end Space

namespace Trace

variable {φ : Type} {t u : Trace φ} {id : ObjectId} {new : Finset ObjectId}

section Counting

/-- The second trace has marked the given records since the first one, and counted each of them
once. -/
structure Counts (t u : Trace φ) (new : Finset ObjectId) : Prop where
  plain : u.space.plain = t.space.plain
  marked : ∀ x, u.space.isMarked x = true ↔ t.space.isMarked x = true ∨ x ∈ new
  fresh : ∀ x ∈ new, t.space.isMarked x = false
  objects : u.objects = t.objects + new.card
  bytes : u.bytes = t.bytes + ∑ x ∈ new, t.space.footprintOf x

theorem Counts.refl (t : Trace φ) : t.Counts t ∅ := ⟨rfl, by simp, by simp, by simp, by simp⟩

theorem Counts.visit (h : t.Counts u new) (id : ObjectId) : ∃ new, t.Counts (u.visit id) new := by
  by_cases hc : u.space.contains id = true
  · by_cases hm : u.space.isMarked id = true
    · rw [visit_of_marked hm]
      exact ⟨new, h⟩
    · obtain ⟨r, hr⟩ := Space.contains_iff.mp hc
      have hunmarked : r.header.marked = false := by simpa [Space.isMarked, hr] using hm
      have hvisit :
          u.visit id = ⟨u.space.mark id, id :: u.work, u.objects + 1, u.bytes + r.header.size⟩ := by
        simp [Trace.visit, hr, hunmarked]
      have hsize : t.space.footprintOf id = r.header.size := by
        rw [← Space.footprintOf_of_plain_eq h.plain]
        simp [Space.footprintOf, hr]
      obtain ⟨hold, hnew⟩ := not_or.mp fun hor => hm ((h.marked id).mpr hor)
      refine ⟨insert id new, ?_⟩
      constructor
      case plain => rw [plain_visit, h.plain]
      case marked =>
        intro x
        rw [isMarked_visit, h.marked, Finset.mem_insert, hc]
        tauto
      case fresh =>
        intro x hx
        rcases Finset.mem_insert.mp hx with rfl | hx
        · simpa using hold
        · exact h.fresh x hx
      case objects => rw [hvisit, Finset.card_insert_of_notMem hnew, h.objects, Nat.add_assoc]
      case bytes => rw [hvisit, Finset.sum_insert hnew, h.bytes, hsize, Nat.add_assoc,
        Nat.add_comm r.header.size]
  · rw [visit_of_absent (by simpa using hc)]
    exact ⟨new, h⟩

theorem Counts.foldl_visit (h : t.Counts u new) (ids : List ObjectId) :
    ∃ new, t.Counts (ids.foldl Trace.visit u) new := by
  induction ids generalizing u new with
  | nil => exact ⟨new, h⟩
  | cons id ids ih =>
    obtain ⟨new', h'⟩ := h.visit id
    exact ih h'

theorem exists_counts_markAll (t : Trace φ) (ids : List ObjectId) :
    ∃ new, t.Counts (t.markAll ids) new := by
  refine drain_of_follow (motive := fun u => ∃ new, t.Counts u new)
    ((Counts.refl t).foldl_visit ids) ?_
  rintro u id rest ⟨new, h⟩ -
  have hrest : t.Counts { u with work := rest } new :=
    ⟨h.plain, h.marked, h.fresh, h.objects, h.bytes⟩
  exact hrest.foldl_visit _

/-- What a trace from some names has counted: what they reach and was not marked. -/
theorem exists_counted_markAll (hw : t.work = []) (hc : t.space.Closed) (ids : List ObjectId) :
    ∃ new : Finset ObjectId, (∀ x, x ∈ new ↔ t.space.Reach (· ∈ ids) x ∧
      t.space.isMarked x = false) ∧ (t.markAll ids).objects = t.objects + new.card ∧
    (t.markAll ids).bytes = t.bytes + ∑ x ∈ new, t.space.footprintOf x := by
  obtain ⟨new, h⟩ := exists_counts_markAll t ids
  refine ⟨new, fun x => ?_, h.objects, h.bytes⟩
  have hmarked := (isMarked_markAll_iff hw hc ids x).symm.trans (h.marked x)
  constructor
  · intro hx
    have hfresh := h.fresh x hx
    exact ⟨(hmarked.mpr (.inr hx)).resolve_left (by simp [hfresh]), hfresh⟩
  · rintro ⟨hreach, hfresh⟩
    exact (hmarked.mp (.inr hreach)).resolve_left (by simp [hfresh])

end Counting

section Extension

/-- What tracing from a name does to a trace. -/
structure Extends (t : Trace φ) (id : ObjectId) : Prop where
  work : (t.markFrom id).work = []
  marked : ∀ x, (t.markFrom id).space.isMarked x = true ↔
    t.space.isMarked x = true ∨ t.space.Reach (· = id) x
  closed : (t.markFrom id).space.Closed
  /-- Nothing but marks changes. -/
  plain : (t.markFrom id).space.plain = t.space.plain
  /-- What is newly marked is counted, with its bytes. -/
  counts : ∃ new : Finset ObjectId, (∀ x, x ∈ new ↔ t.space.Reach (· = id) x ∧
      t.space.isMarked x = false) ∧ (t.markFrom id).objects = t.objects + new.card ∧
    (t.markFrom id).bytes = t.bytes + ∑ x ∈ new, t.space.footprintOf x
  /-- Without marks, a trace from the roots counts what is strongly reachable. -/
  roots : t.space.Unmarked → ∃ strong : Finset ObjectId, (∀ x, x ∈ strong ↔
      t.space.Reach (Rooted t.space) x) ∧ (markRoots t.space).objects = strong.card ∧
    (markRoots t.space).bytes = ∑ x ∈ strong, t.space.footprintOf x

theorem exists_counted_markRoots {s : Space φ} (hu : s.Unmarked) :
    ∃ strong : Finset ObjectId, (∀ x, x ∈ strong ↔ s.Reach (Rooted s) x) ∧
    (markRoots s).objects = strong.card ∧ (markRoots s).bytes = ∑ x ∈ strong, s.footprintOf x := by
  obtain ⟨new, hnew, hobjects, hbytes⟩ :=
    exists_counted_markAll (t := ⟨s, [], 0, 0⟩) rfl hu.closed (rooted s)
  refine ⟨new,
    fun x => ?_, by rw [markRoots, hobjects, Nat.zero_add], by rw [markRoots, hbytes, Nat.zero_add]⟩
  have hrooted : (· ∈ rooted s) = Rooted s := funext fun _ => propext mem_rooted
  rw [hnew, hu.isMarked, hrooted]
  exact and_iff_left rfl

theorem bytes_markRoots_congr {s s' : Space φ} (hu : s.Unmarked) (hu' : s'.Unmarked)
    (hreach : ∀ x, s'.Reach (Rooted s') x ↔ s.Reach (Rooted s) x)
    (hsize : ∀ x, s.Reach (Rooted s) x → s'.footprintOf x = s.footprintOf x) :
    (markRoots s').bytes = (markRoots s).bytes := by
  obtain ⟨strong, hstrong, -, hbytes⟩ := exists_counted_markRoots hu
  obtain ⟨strong', hstrong', -, hbytes'⟩ := exists_counted_markRoots hu'
  have hsame : strong' = strong := Finset.ext fun x => by rw [hstrong', hreach, hstrong]
  rw [hbytes, hbytes', hsame]
  exact Finset.sum_congr rfl fun x hx => hsize x ((hstrong x).mp hx)

/-- **Tracing from a name is exact and counts exactly.**  Whatever is marked already, as long as it
is closed under fields, and whatever cycles and stale names there are in fields. -/
theorem extends_markFrom (t : Trace φ) (hw : t.work = []) (hc : t.space.Closed) (id : ObjectId) :
    t.Extends id where
  work := work_markFrom t id
  marked := isMarked_markFrom_iff hw hc id
  closed := closed_markFrom hw hc id
  plain := plain_markFrom t id
  counts := by
      simpa only [List.mem_singleton, markFrom_eq_markAll] using exists_counted_markAll hw hc [id]
  roots := exists_counted_markRoots

/-- An object that names itself, and two that name each other; one of these names the first one and
a stale name. -/
def ringSpace : Space Unit where
  slots := #[⟨1, some ⟨.fresh 24 false, #[some ⟨0, 1⟩], none, 0⟩⟩,
    ⟨1, some ⟨.fresh 40 false, #[some ⟨0, 1⟩, some ⟨2, 1⟩, some ⟨0, 7⟩], none, 0⟩⟩,
    ⟨1, some ⟨.fresh 32 false, #[none, some ⟨1, 1⟩], none, 0⟩⟩]
  free := []
  usedBytes := 96
  liveObjects := 3
  capacity := 1024

theorem unmarked_ringSpace : ringSpace.Unmarked := by
  intro id r hr
  obtain ⟨slot, hslot, -, hrecord⟩ := Space.get?_eq_some_iff.mp hr
  have hmem := Array.mem_of_getElem? hslot
  simp only [ringSpace, List.mem_toArray, List.mem_cons, List.not_mem_nil, or_false] at hmem
  rcases hmem with rfl | rfl | rfl <;> cases hrecord <;> rfl

/-- The trace of the first object is extended by one of the other two, which adds both of them. -/
theorem extends_ring :
    let t := markFrom ⟨ringSpace, [], 0, 0⟩ ⟨0, 1⟩
    t.Extends ⟨1, 1⟩ ∧ (t.objects, t.bytes) = (1, 24) ∧
      ((t.markFrom ⟨1, 1⟩).objects, (t.markFrom ⟨1, 1⟩).bytes) = (3, 96) :=
  ⟨extends_markFrom _ (work_markFrom _ _)
    (closed_markFrom rfl unmarked_ringSpace.closed _) _, by decide +kernel, by decide +kernel⟩

end Extension

end Trace

end ManagedHeap
