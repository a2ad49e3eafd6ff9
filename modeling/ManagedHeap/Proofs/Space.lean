import ManagedHeap.Heap.Space
import Mathlib.Data.List.Nodup
import Mathlib.Tactic

/-!
# What names find in an object space

**Input.**  A space before and after one of its operations.

**Results.**
* `Space.get?_update`, `Space.get?_insert`, `Space.get?_sweep`: what every name finds afterwards, in
  terms of what it found before.
* `Space.Sound`: the stack of vacant slots lists exactly the slots without a record, each once.
  Every operation keeps this, and it is what makes the next name a fresh one.
-/

namespace ManagedHeap

namespace Space

variable {φ : Type} {s : Space φ} {id : ObjectId} {r : Record φ}

section Find

theorem get?_eq_some_iff : s.get? id = some r ↔ ∃ slot, s.slots[id.index]? = some slot ∧
    slot.generation = id.generation ∧ slot.record = some r := by
  unfold get?
  cases hslot : s.slots[id.index]? with
  | none => simp
  | some slot =>
    by_cases hg : slot.generation = id.generation
    · simp [hg]
    · simp [hg]

theorem contains_iff : s.contains id = true ↔ ∃ r, s.get? id = some r := by
  exact Option.isSome_iff_exists

theorem contains_of_get? (h : s.get? id = some r) : s.contains id = true :=
  contains_iff.mpr ⟨r, h⟩

theorem contains_eq_false_iff : s.contains id = false ↔ s.get? id = none := by
  simp [contains]

theorem isMarked_iff : s.isMarked id = true ↔ ∃ r, s.get? id = some r ∧ r.header.marked = true := by
  unfold isMarked
  cases s.get? id with
  | none => simp
  | some r => simp

end Find

section Update

theorem slots_update_of_not_contains {f : Record φ → Record φ} (h : s.contains id = false) :
    s.update id f = s := by
  simp [update, h]

theorem get?_update (s : Space φ) (id : ObjectId) (f : Record φ → Record φ) (id' : ObjectId) :
    (s.update id f).get? id' = if id' = id then (s.get? id).map f else s.get? id' := by
  by_cases hc : s.contains id = true
  · obtain ⟨r, hr⟩ := contains_iff.mp hc
    obtain ⟨slot, hslot, hg, hrec⟩ := get?_eq_some_iff.mp hr
    simp only [update, hc, if_true, get?, Array.getElem?_modify]
    by_cases hi : id.index = id'.index
    · rw [← hi, hslot]
      by_cases hid : id' = id
      · subst hid
        simp [hg]
      · have hne : slot.generation ≠ id'.generation := by
          intro hg'
          apply hid
          cases id
          cases id'
          simp_all
        simp [hid, hne]
    · have hid : id' ≠ id := by
        rintro rfl
        exact hi rfl
      simp [hi, hid]
  · have hc' : s.contains id = false := by simpa using hc
    rw [slots_update_of_not_contains hc']
    by_cases hid : id' = id
    · subst hid
      simp [contains_eq_false_iff.mp hc']
    · simp [hid]

theorem update_congr {f g : Record φ → Record φ} (h : ∀ r, s.get? id = some r → f r = g r) :
    s.update id f = s.update id g := by
  unfold update
  split
  · rename_i hc
    obtain ⟨r, hr⟩ := contains_iff.mp hc
    obtain ⟨slot, hslot, -, hrec⟩ := get?_eq_some_iff.mp hr
    congr 1
    apply Array.ext_getElem?
    intro i
    simp only [Array.getElem?_modify]
    split
    · rename_i hi
      subst hi
      simp [hslot, hrec, h r hr]
    · rfl
  · rfl

@[simp] theorem contains_update (s : Space φ) (id : ObjectId) (f : Record φ → Record φ)
    (id' : ObjectId) : (s.update id f).contains id' = s.contains id' := by
  unfold contains
  rw [get?_update]
  split
  · rename_i h
    subst h
    simp
  · rfl

@[simp] theorem free_update (s : Space φ) (id : ObjectId) (f : Record φ → Record φ) :
    (s.update id f).free = s.free := by
  unfold update
  split <;> rfl

@[simp] theorem size_slots_update (s : Space φ) (id : ObjectId) (f : Record φ → Record φ) :
    (s.update id f).slots.size = s.slots.size := by
  unfold update
  split <;> simp

end Update

section Sound

/-- The stack of vacant slots lists exactly the slots without a record, each once. -/
structure Sound (s : Space φ) : Prop where
  nodup : s.free.Nodup
  vacant : ∀ i, i ∈ s.free ↔ ∃ slot, s.slots[i]? = some slot ∧ slot.record = none

theorem Sound.empty (capacity : Nat) : (Space.empty capacity : Space φ).Sound where
  nodup := by simp [Space.empty]
  vacant := by simp [Space.empty]

theorem Sound.update (hs : s.Sound) (id : ObjectId) (f : Record φ → Record φ) :
    (s.update id f).Sound where
  nodup := by simpa using hs.nodup
  vacant := by
    intro i
    rw [free_update, hs.vacant i]
    unfold Space.update
    split
    · simp only [Array.getElem?_modify]
      by_cases hi : id.index = i
      · subst hi
        cases s.slots[id.index]? <;> simp
      · simp [hi]
    · rfl

theorem Sound.nextId_cons (hs : s.Sound) {i : Nat} {rest : List Nat} (hf : s.free = i :: rest) :
    ∃ slot, s.slots[i]? = some slot ∧ slot.record = none ∧ s.nextId = ⟨i, slot.generation⟩ := by
  obtain ⟨slot, hslot, hrec⟩ := (hs.vacant i).mp (by simp [hf])
  exact ⟨slot, hslot, hrec, by simp [nextId, hf, hslot]⟩

theorem Sound.get?_nextId (hs : s.Sound) : s.get? s.nextId = none := by
  cases hf : s.free with
  | nil => simp [nextId, hf, get?]
  | cons i rest =>
    obtain ⟨slot, hslot, hrec, hid⟩ := hs.nextId_cons hf
    simp [hid, get?, hslot, hrec]

/-- A stored record is found under the next name; every other name finds what it found before. -/
theorem Sound.get?_insert (hs : s.Sound) (r : Record φ) (id : ObjectId) :
    (s.insert r).get? id = if id = s.nextId then some r else s.get? id := by
  cases hf : s.free with
  | nil =>
    have hid : s.nextId = ⟨s.slots.size, 1⟩ := by simp [nextId, hf]
    simp only [insert, hf, hid, get?, Array.getElem?_push]
    by_cases hi : id.index = s.slots.size
    · by_cases hg : (1 : Nat) = id.generation
      · have : id = ⟨s.slots.size, 1⟩ := by
          cases id
          simp_all
        simp [this]
      · have : id ≠ ⟨s.slots.size, 1⟩ := by
          rintro rfl
          exact hg rfl
        simp [hi, hg, this]
    · have : id ≠ ⟨s.slots.size, 1⟩ := by
        rintro rfl
        exact hi rfl
      simp [hi, this]
  | cons i rest =>
    obtain ⟨slot, hslot, hrec, hid⟩ := hs.nextId_cons hf
    simp only [insert, hf, hid, get?, Array.getElem?_modify]
    by_cases hi : i = id.index
    · subst hi
      by_cases hg : slot.generation = id.generation
      · have : id = ⟨id.index, slot.generation⟩ := by rw [hg]
        simp [hslot, hg]
      · have : id ≠ ⟨id.index, slot.generation⟩ := by
          intro h
          exact hg (congrArg ObjectId.generation h).symm
        rw [if_neg this]
        simp [hslot, hg]
    · have : id ≠ ⟨i, slot.generation⟩ := by
        rintro rfl
        exact hi rfl
      simp [hi, this]

theorem Sound.insert (hs : s.Sound) (r : Record φ) : (s.insert r).Sound := by
  cases hf : s.free with
  | nil =>
    have hnone : ∀ i : Nat, ¬ ∃ slot, s.slots[i]? = some slot ∧ slot.record = none := by
      intro i hi
      have := (hs.vacant i).mpr hi
      simp [hf] at this
    refine ⟨by simp [Space.insert, hf], fun i => ?_⟩
    simp only [Space.insert, hf, List.drop_nil, List.not_mem_nil, false_iff, Array.getElem?_push]
    rintro ⟨slot, hslot, hrec⟩
    split at hslot
    · cases hslot
      simp at hrec
    · exact hnone i ⟨slot, hslot, hrec⟩
  | cons j rest =>
    have hnd := hs.nodup
    rw [hf, List.nodup_cons] at hnd
    refine ⟨by simpa [Space.insert, hf] using hnd.2, fun i => ?_⟩
    simp only [Space.insert, hf, List.drop_succ_cons, List.drop_zero, Array.getElem?_modify]
    by_cases hj : j = i
    · subst hj
      simp only [hnd.1, if_true, false_iff]
      rintro ⟨slot, hslot, hrec⟩
      cases hs' : s.slots[j]? with
      | none => simp [hs'] at hslot
      | some slot' =>
        simp only [hs', Option.map_some, Option.some.injEq] at hslot
        subst hslot
        simp at hrec
    · rw [if_neg hj, ← hs.vacant i, hf, List.mem_cons]
      constructor
      · exact Or.inr
      · rintro (h | h)
        · exact absurd h.symm hj
        · exact h

end Sound

section Sweep

variable {slot : Slot φ}

theorem swept_of_marked (h : slot.record = some r) (hm : r.header.marked = true) :
    slot.swept = { slot with record := some { r with header := r.header.unmark } } := by
  simp [Slot.swept, h, hm]

theorem swept_of_unmarked (h : slot.record = some r) (hm : r.header.marked = false) :
    slot.swept = ⟨nextGeneration slot.generation, none⟩ := by
  simp [Slot.swept, h, hm]

theorem swept_of_vacant (h : slot.record = none) : slot.swept = slot := by
  simp [Slot.swept, h]

/-- After a sweep a name finds the record that it found before if that one was marked, without its
mark, and nothing otherwise. -/
theorem get?_sweep (s : Space φ) (id : ObjectId) : s.sweep.get? id = (s.get? id).bind fun r =>
        if r.header.marked then some { r with header := r.header.unmark } else none := by
  simp only [get?, sweep, Array.getElem?_map]
  cases hslot : s.slots[id.index]? with
  | none => simp
  | some slot =>
    simp only [Option.map_some]
    cases hrec : slot.record with
    | none => simp [swept_of_vacant hrec, hrec]
    | some r =>
      cases hm : r.header.marked with
      | true =>
        simp only [swept_of_marked hrec hm]
        by_cases hg : slot.generation = id.generation
        · simp [hg, hm]
        · simp [hg]
      | false =>
        simp only [swept_of_unmarked hrec hm]
        by_cases hg : slot.generation = id.generation
        · simp [hg, hm]
        · simp [hg]

theorem garbage?_isSome_iff : (∃ r, slot.garbage? = some r) ↔
    ∃ r, slot.record = some r ∧ r.header.marked = false := by
  simp [Slot.garbage?, Option.filter_eq_some_iff]

theorem swept_record_eq_none_iff : slot.swept.record = none ↔
    slot.record = none ∨ ∃ r, slot.garbage? = some r := by
  rw [garbage?_isSome_iff]
  cases hrec : slot.record with
  | none => simp [swept_of_vacant hrec, hrec]
  | some r =>
    cases hm : r.header.marked with
    | true => simp [swept_of_marked hrec hm, hm]
    | false => simp [swept_of_unmarked hrec hm, hm]

theorem mem_vacated {i : Nat} : i ∈ s.vacated ↔
    ∃ slot, s.slots[i]? = some slot ∧ ∃ r, slot.garbage? = some r := by
  unfold vacated
  simp only [List.mem_filterMap, Prod.exists, List.mem_zipIdx_iff_getElem?, Option.map_eq_some_iff]
  constructor
  · rintro ⟨slot, j, hslot, r, hr, rfl⟩
    exact ⟨slot, by simpa using hslot, r, hr⟩
  · rintro ⟨slot, hslot, r, hr⟩
    exact ⟨slot, i, by simpa using hslot, r, hr, rfl⟩

theorem nodup_vacated (s : Space φ) : s.vacated.Nodup := by
  have hidx : (s.slots.toList.zipIdx.map Prod.snd).Nodup := by
    rw [List.zipIdx_map_snd]
    exact List.nodup_range'
  have hsub : s.vacated.Sublist (s.slots.toList.zipIdx.map Prod.snd) := by
    unfold vacated
    induction s.slots.toList.zipIdx with
    | nil => simp
    | cons p l ih =>
      cases hp : p.1.garbage? with
      | none => simpa [hp] using ih.cons p.2
      | some r => simpa [hp] using ih
  exact hsub.nodup hidx

theorem Sound.sweep (hs : s.Sound) : s.sweep.Sound where
  nodup := by
    refine List.Nodup.append (List.nodup_reverse.mpr (nodup_vacated s)) hs.nodup ?_
    intro i hi hf
    obtain ⟨slot, hslot, r, hr⟩ := mem_vacated.mp (List.mem_reverse.mp hi)
    obtain ⟨slot', hslot', hrec⟩ := (hs.vacant i).mp hf
    rw [hslot] at hslot'
    cases hslot'
    simp [Slot.garbage?, hrec] at hr
  vacant := by
    intro i
    simp only [Space.sweep, List.mem_append, List.mem_reverse, mem_vacated, hs.vacant i,
      Array.getElem?_map]
    constructor
    · rintro (⟨slot, hslot, hr⟩ | ⟨slot, hslot, hrec⟩)
      · exact ⟨slot.swept, by simp [hslot], swept_record_eq_none_iff.mpr (Or.inr hr)⟩
      · exact ⟨slot.swept, by simp [hslot], swept_record_eq_none_iff.mpr (Or.inl hrec)⟩
    · rintro ⟨slot', hslot', hrec⟩
      obtain ⟨slot, hslot, rfl⟩ := Option.map_eq_some_iff.mp hslot'
      rcases swept_record_eq_none_iff.mp hrec with h | h
      · exact Or.inr ⟨slot, hslot, h⟩
      · exact Or.inl ⟨slot, hslot, h⟩

end Sweep

section Ids

theorem mem_ids : id ∈ s.ids ↔ ∃ r, s.get? id = some r := by
  unfold ids
  simp only [List.mem_filterMap, Prod.exists, List.mem_zipIdx_iff_getElem?, Option.map_eq_some_iff]
  constructor
  · rintro ⟨slot, i, hslot, r, hr, rfl⟩
    exact ⟨r, get?_eq_some_iff.mpr ⟨slot, by simpa using hslot, rfl, hr⟩⟩
  · rintro ⟨r, hr⟩
    obtain ⟨slot, hslot, hg, hrec⟩ := get?_eq_some_iff.mp hr
    exact ⟨slot, id.index, by simpa using hslot, r, hrec, by rw [hg]⟩

theorem nodup_ids (s : Space φ) : s.ids.Nodup := by
  have hidx : (s.slots.toList.zipIdx.map Prod.snd).Nodup := by
    rw [List.zipIdx_map_snd]
    exact List.nodup_range'
  have hsub : (s.ids.map ObjectId.index).Sublist (s.slots.toList.zipIdx.map Prod.snd) := by
    unfold ids
    induction s.slots.toList.zipIdx with
    | nil => simp
    | cons p l ih =>
      cases hp : p.1.record with
      | none => simpa [hp] using ih.cons p.2
      | some r => simpa [hp] using ih
  exact List.Nodup.of_map ObjectId.index (hsub.nodup hidx)

end Ids

end Space

end ManagedHeap
