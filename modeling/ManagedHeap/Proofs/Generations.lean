import ManagedHeap.Proofs.Space

/-!
# Names across generations

**Input.**  Changes of an object space from the empty one: records are stored, changed in place and
swept.

**Algorithm.**  A slot moves to its next generation only when a sweep empties it.  Generations are
the words from one to `2 ^ 32 - 1` in a circle, so a slot is back at a generation after every
`2 ^ 32 - 1` times that it was emptied, and at no time in between.

**Results.**  `Space.resolves_changed`: a name that was ever given out finds a record exactly if its
slot has one and was emptied a multiple of `2 ^ 32 - 1` times since.
-/

namespace ManagedHeap

def generationPeriod : Nat := 2 ^ 32 - 1

/-- The generation that comes `k` times after `g`. -/
def laterGeneration (g k : Nat) : Nat := (g - 1 + k) % generationPeriod + 1

def IsGeneration (g : Nat) : Prop := 0 < g ∧ g < UInt32.size

section Circle

variable {g : Nat}

theorem isGeneration_laterGeneration (g k : Nat) : IsGeneration (laterGeneration g k) := by
  have hlt : (g - 1 + k) % generationPeriod < generationPeriod := Nat.mod_lt _ (by decide)
  exact ⟨Nat.succ_pos _, Nat.succ_lt_succ hlt⟩

theorem laterGeneration_zero (hg : IsGeneration g) : laterGeneration g 0 = g := by
  obtain ⟨hpos, hle⟩ := hg
  simp only [laterGeneration, generationPeriod, UInt32.size] at hle ⊢
  omega

theorem nextGeneration_eq (hg : IsGeneration g) : nextGeneration g = laterGeneration g 1 := by
  obtain ⟨hpos, hle⟩ := hg
  simp only [nextGeneration, laterGeneration, generationPeriod, UInt32.size] at hle ⊢
  split <;> omega

theorem laterGeneration_add (g j k : Nat) :
    laterGeneration (laterGeneration g j) k = laterGeneration g (j + k) := by
  simp only [laterGeneration, generationPeriod]
  omega

theorem laterGeneration_eq_self_iff (hg : IsGeneration g) (k : Nat) :
    laterGeneration g k = g ↔ generationPeriod ∣ k := by
  obtain ⟨hpos, hle⟩ := hg
  simp only [laterGeneration, generationPeriod, UInt32.size] at hle ⊢
  omega

end Circle

namespace Space

variable {φ : Type} {s : Space φ} {i : Nat} {slot : Slot φ}

/-- What may be done to a space. -/
inductive Change (φ : Type) where
  | insert (r : Record φ)
  /-- A change of a record in its place, such as a mark, a root or a field. -/
  | update (id : ObjectId) (f : Record φ → Record φ)
  | sweep

def change (s : Space φ) : Change φ → Space φ
  | .insert r => s.insert r
  | .update id f => s.update id f
  | .sweep => s.sweep

def changed (s : Space φ) (changes : List (Change φ)) : Space φ := changes.foldl change s

def occupant (s : Space φ) (i : Nat) : Option (Record φ) := s.slots[i]?.bind Slot.record

def empties (s : Space φ) (i : Nat) : Change φ → Nat
  | .sweep => if i ∈ s.vacated then 1 else 0
  | _ => 0

def timesEmptied (s : Space φ) (i : Nat) : List (Change φ) → Nat
  | [] => 0
  | c :: changes => s.empties i c + (s.change c).timesEmptied i changes

section Slots

variable (hg : IsGeneration slot.generation)

variable (hslot : s.slots[i]? = some slot)

include hg hslot

theorem generation_swept :
    slot.swept.generation = laterGeneration slot.generation (s.empties i .sweep) := by
  have hvacated : i ∈ s.vacated ↔ ∃ r, slot.record = some r ∧ r.header.marked = false := by
    simp [mem_vacated, hslot, garbage?_isSome_iff]
  unfold empties
  by_cases hi : i ∈ s.vacated
  · obtain ⟨r, hr, hm⟩ := hvacated.mp hi
    rw [if_pos hi, swept_of_unmarked hr hm]
    exact nextGeneration_eq hg
  · rw [if_neg hi, laterGeneration_zero hg]
    cases hr : slot.record with
    | none => rw [swept_of_vacant hr]
    | some r =>
      cases hm : r.header.marked with
      | true => rw [swept_of_marked hr hm]
      | false => exact absurd (hvacated.mpr ⟨r, hr, hm⟩) hi

theorem exists_slot_change (c : Change φ) :
    ∃ slot', (s.change c).slots[i]? = some slot' ∧
      slot'.generation = laterGeneration slot.generation (s.empties i c) := by
  have hsame : slot.generation = laterGeneration slot.generation 0 := (laterGeneration_zero hg).symm
  have hmodify : ∀ (j : Nat) (f : Option (Record φ) → Option (Record φ)), ∃ slot',
      (s.slots.modify j fun slot => { slot with record := f slot.record })[i]? = some slot' ∧
        slot'.generation = laterGeneration slot.generation 0 := by
    intro j f
    rw [Array.getElem?_modify, hslot]
    split
    · exact ⟨_, rfl, hsame⟩
    · exact ⟨slot, rfl, hsame⟩
  cases c with
  | insert r =>
    simp only [change, insert]
    cases s.free with
    | nil =>
      refine ⟨slot, ?_, hsame⟩
      obtain ⟨hi, -⟩ := Array.getElem?_eq_some_iff.mp hslot
      rw [Array.getElem?_push, if_neg hi.ne, hslot]
    | cons j rest => exact hmodify j fun _ => some r
  | update id f =>
    simp only [change, update]
    split
    · exact hmodify id.index (Option.map f)
    · exact ⟨slot, hslot, hsame⟩
  | sweep => exact ⟨slot.swept, by simp [change, sweep, hslot], generation_swept hg hslot⟩

/-- Changes keep a slot; its generation moves on as often as the slot is emptied. -/
theorem exists_slot_changed (changes : List (Change φ)) :
    ∃ slot', (s.changed changes).slots[i]? = some slot' ∧
    slot'.generation = laterGeneration slot.generation (s.timesEmptied i changes) := by
  induction changes generalizing s slot with
  | nil => exact ⟨slot, hslot, (laterGeneration_zero hg).symm⟩
  | cons c changes ih =>
    obtain ⟨next, hnext, hgeneration⟩ := exists_slot_change hg hslot c
    obtain ⟨last, hlast, hlater⟩ := ih (hgeneration ▸ isGeneration_laterGeneration _ _) hnext
    refine ⟨last, hlast, ?_⟩
    rw [hlater, hgeneration, laterGeneration_add]
    rfl

omit hslot hg

/-- Only a new slot is not among the old ones, and it starts at the first generation. -/
theorem isGeneration_change (h : ∀ slot ∈ s.slots, IsGeneration slot.generation) (c : Change φ) :
    ∀ slot ∈ (s.change c).slots, IsGeneration slot.generation := by
  intro slot hmem
  obtain ⟨i, hslot⟩ := Array.getElem?_of_mem hmem
  cases hold : s.slots[i]? with
  | some old =>
    obtain ⟨next, hnext, hgeneration⟩ :=
      exists_slot_change (h old (Array.mem_of_getElem? hold)) hold c
    cases hnext.symm.trans hslot
    exact hgeneration ▸ isGeneration_laterGeneration _ _
  | none =>
    cases c with
    | insert r =>
      simp only [change, insert] at hslot
      cases hf : s.free with
      | nil =>
        simp only [hf, Array.getElem?_push, hold, Option.ite_none_right_eq_some] at hslot
        cases hslot.2
        exact isGeneration_laterGeneration 1 0
      | cons j rest => simp [hf, Array.getElem?_modify, hold] at hslot
    | update id f =>
      have hsize : (s.update id f).slots.size ≤ i := by simpa using hold
      simp [change, Array.getElem?_eq_none hsize] at hslot
    | sweep => simp [change, sweep, hold] at hslot

end Slots

section Names

/-- A space in good order, in which all slots have generations. -/
structure Dated (s : Space φ) : Prop where
  sound : s.Sound
  generations : ∀ slot ∈ s.slots, IsGeneration slot.generation

theorem Dated.empty (capacity : Nat) : (Space.empty capacity : Space φ).Dated where
  sound := .empty capacity
  generations := by simp [Space.empty]

theorem Dated.change (hd : s.Dated) (c : Change φ) : (s.change c).Dated where
  sound := by
    cases c with
    | insert r => exact hd.sound.insert r
    | update id f => exact hd.sound.update id f
    | sweep => exact hd.sound.sweep
  generations := isGeneration_change hd.generations c

theorem Dated.changed (hd : s.Dated) (changes : List (Change φ)) : (s.changed changes).Dated := by
  induction changes generalizing s with
  | nil => exact hd
  | cons c changes ih => exact ih (hd.change c)

/-- What a name finds whose slot was emptied `k` times since it was given out. -/
structure Resolves (s : Space φ) (id : ObjectId) (k : Nat) : Prop where
  finds : ∀ r, s.get? id = some r ↔ s.occupant id.index = some r ∧ 2 ^ 32 - 1 ∣ k
  contains : s.contains id = true ↔ (s.occupant id.index).isSome = true ∧ 2 ^ 32 - 1 ∣ k
  /-- A root is added to the record, or the space stays as it is. -/
  pins : s.pin id ≠ s ↔ (s.occupant id.index).isSome = true ∧ 2 ^ 32 - 1 ∣ k
  /-- No later record is found before the slot has gone through all generations. -/
  stale : 0 < k → k < 2 ^ 32 - 1 → s.get? id = none

theorem pin_ne_self_iff (s : Space φ) (id : ObjectId) : s.pin id ≠ s ↔ s.contains id = true := by
  constructor
  · intro hne
    by_contra hno
    exact hne (slots_update_of_not_contains (by simpa using hno))
  · intro hc heq
    obtain ⟨r, hr⟩ := contains_iff.mp hc
    have hpinned := get?_update s id (fun r => { r with roots := r.roots + 1 }) id
    rw [if_pos rfl, ← pin, heq, hr, Option.map_some, Option.some.injEq] at hpinned
    have hroots : r.roots = r.roots + 1 := congrArg Record.roots hpinned
    omega

theorem Resolves.of_finds {id : ObjectId} {k : Nat}
    (h : ∀ r, s.get? id = some r ↔ s.occupant id.index = some r ∧ 2 ^ 32 - 1 ∣ k) :
    s.Resolves id k := by
  have hcontains : s.contains id = true ↔ (s.occupant id.index).isSome = true ∧ 2 ^ 32 - 1 ∣ k := by
    rw [contains_iff, Option.isSome_iff_exists, exists_and_right.symm]
    exact exists_congr h
  refine ⟨h, hcontains, (pin_ne_self_iff s id).trans hcontains, fun hpos hlt => ?_⟩
  refine contains_eq_false_iff.mp (Bool.eq_false_iff.mpr fun hc => ?_)
  exact absurd (Nat.le_of_dvd hpos (hcontains.mp hc).2) (by omega)

/-- **A name is good exactly for the record it was given out for, up to whole circles of
generations.**  After any changes of an empty space a record is stored; whatever is done afterwards,
its name finds, holds and pins a record exactly if the slot has one and was emptied a multiple of
`2 ^ 32 - 1` times since. -/
theorem resolves_changed (capacity : Nat) (before : List (Change φ)) (r : Record φ)
    (changes : List (Change φ)) :
    let s := (empty capacity).changed before
    ((s.insert r).changed changes).Resolves s.nextId
      ((s.insert r).timesEmptied s.nextId.index changes) := by
  intro s
  have hd : s.Dated := (Dated.empty capacity).changed before
  have hstored : (s.insert r).get? s.nextId = some r := by rw [hd.sound.get?_insert, if_pos rfl]
  obtain ⟨slot, hslot, hgeneration, -⟩ := get?_eq_some_iff.mp hstored
  have hg : IsGeneration slot.generation :=
    (hd.change (.insert r)).generations slot (Array.mem_of_getElem? hslot)
  obtain ⟨last, hlast, hlater⟩ := exists_slot_changed hg hslot changes
  refine .of_finds fun r' => ?_
  have hback := laterGeneration_eq_self_iff hg ((s.insert r).timesEmptied s.nextId.index changes)
  rw [← hlater, hgeneration] at hback
  simp only [get?, occupant, hlast, Option.bind_some, Option.ite_none_right_eq_some, hback]
  exact and_comm

end Names

end Space

end ManagedHeap
