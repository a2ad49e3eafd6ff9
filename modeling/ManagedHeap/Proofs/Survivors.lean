import ManagedHeap.Proofs.Runs

/-!
# The survivors of a collection

**Input.**  A heap of any run.

**Algorithm.**  Between two sections no record of a heap is marked, vacant slots are listed once,
and the flag for a finalizer says whether there is one.  Every act keeps that.

**Results.**  A pause of such a heap keeps exactly what roots, retained soft references and
finalizers that are going to run reach (`World.contains_pause_iff_survives`).
-/

namespace ManagedHeap

/-- A heap between two sections. -/
structure Heap.Tidy {φ : Type} (h : Heap φ) : Prop where
  sound : h.space.Sound
  unmarked : h.space.Unmarked
  mirrored : h.space.Mirrored

/-- The heaps of all engines stand at their places and are tidy. -/
def Core.Tidy (c : Core) : Prop :=
  ∀ (e : Nat) (x : Heap Finalizer), c.heaps[e]? = some x → x.key = e ∧ x.Tidy

namespace Heap

variable {φ : Type} {h : Heap φ}

section Tidy

theorem Tidy.empty (key capacity : Nat) : (Heap.empty key capacity : Heap φ).Tidy where
  sound := .empty capacity
  unmarked id r hr := by simp [Heap.empty, Space.empty, Space.get?] at hr
  mirrored id r hr := by simp [Heap.empty, Space.empty, Space.get?] at hr

theorem Tidy.update (ht : h.Tidy) (id : ObjectId) {f : Record φ → Record φ} {n : Nat}
    (hm : ∀ r, (f r).header.marked = r.header.marked)
    (hf : ∀ r, (f r).header.finalizable = r.header.finalizable ∧ (f r).finalizer = r.finalizer) :
    ({ h with space := h.space.update id f, faults := n } : Heap φ).Tidy where
  sound := ht.sound.update id f
  unmarked id' r hr := by
    dsimp only at hr
    rw [Space.get?_update] at hr
    split at hr
    · obtain ⟨r₀, hr₀, rfl⟩ := Option.map_eq_some_iff.mp hr
      rw [hm, ht.unmarked _ _ hr₀]
    · exact ht.unmarked id' r hr
  mirrored id' r hr := by
    dsimp only at hr
    rw [Space.get?_update] at hr
    split at hr
    · obtain ⟨r₀, hr₀, rfl⟩ := Option.map_eq_some_iff.mp hr
      rw [(hf r₀).1, (hf r₀).2, ht.mirrored _ _ hr₀]
    · exact ht.mirrored id' r hr

theorem Tidy.store (ht : h.Tidy) (size fields : Nat) (f : Option φ) :
    (h.store size fields f).Tidy where
  sound := ht.sound.insert _
  unmarked id r hr := by
    unfold Heap.store at hr
    dsimp only at hr
    rw [ht.sound.get?_insert] at hr
    split at hr
    · cases hr
      rfl
    · exact ht.unmarked id r hr
  mirrored id r hr := by
    unfold Heap.store at hr
    dsimp only at hr
    rw [ht.sound.get?_insert] at hr
    split at hr
    · cases hr
      rfl
    · exact ht.mirrored id r hr

variable (ht : h.Tidy) (settings : Settings) (reason : Reason)

include ht settings reason

theorem exists_of_get?_pause {id : ObjectId} {r' : Record φ}
    (hr : (h.pause settings reason).heap.space.get? id = some r') : h.Survives settings reason id ∧
    ∃ r, h.space.get? id = some r ∧ (h.Scheduled settings reason id ∧ r' = r.scheduled ∨
      ¬h.Scheduled settings reason id ∧ r' = r) := by
  rw [get?_pause settings reason ht.unmarked ht.mirrored] at hr
  split at hr
  · next hs =>
      obtain ⟨r, hr₀, rfl⟩ := Option.map_eq_some_iff.mp hr
      exact ⟨hs.survives, r, hr₀, .inl ⟨hs, rfl⟩⟩
  · next hs =>
      split at hr
      · next hsurv => exact ⟨hsurv, r', hr, .inr ⟨hs, rfl⟩⟩
      · cases hr

theorem Tidy.pause : (h.pause settings reason).heap.Tidy where
  sound := sound_pause settings reason ht.unmarked ht.sound
  unmarked id r' hr := by
    obtain ⟨-, r, hr₀, ⟨-, rfl⟩ | ⟨-, rfl⟩⟩ := exists_of_get?_pause ht settings reason hr
    · exact ht.unmarked id r hr₀
    · exact ht.unmarked id _ hr₀
  mirrored id r' hr := by
    obtain ⟨-, r, hr₀, ⟨-, rfl⟩ | ⟨-, rfl⟩⟩ := exists_of_get?_pause ht settings reason hr
    · rfl
    · exact ht.mirrored id _ hr₀

theorem contains_pause (id : ObjectId) :
    (h.pause settings reason).heap.space.contains id = true ↔ h.Survives settings reason id := by
  constructor
  · intro hc
    obtain ⟨r, hr⟩ := Space.contains_iff.mp hc
    exact (exists_of_get?_pause ht settings reason hr).1
  · intro hs
    obtain ⟨r, hr⟩ := Space.contains_iff.mp hs.contains
    unfold Space.contains
    rw [get?_pause settings reason ht.unmarked ht.mirrored, hr, if_pos hs]
    split <;> rfl

end Tidy

end Heap

namespace Core

variable {c : Core} {e : Nat} {f : Heap Finalizer → Heap Finalizer}

theorem Tidy.modifyHeap (h : c.Tidy)
    (hf : ∀ x, c.heaps[e]? = some x → x.Tidy → (f x).key = x.key ∧ (f x).Tidy) :
    (c.modifyHeap e f).Tidy := by
  refine forall_heaps_modifyHeap h fun x hx ⟨hkey, htidy⟩ => ?_
  obtain ⟨hkey', htidy'⟩ := hf x hx htidy
  exact ⟨hkey'.trans hkey, htidy'⟩

theorem Tidy.of_heaps {c' : Core} (h : c.Tidy) (heaps : c'.heaps = c.heaps) : c'.Tidy := by
  unfold Tidy
  rwa [heaps]

end Core

namespace Act

variable {c c' : Core} {p p' : Multiset Asset} {deeds : List Deed}

theorem tidy (h : Act L c p deeds c' p') (ht : c.Tidy) : c'.Tidy := by
  have onReferences : ∀ {e f}, (∀ x, c.heaps[e]? = some x →
        (f x).key = x.key ∧ (f x).space = x.space) → (c.modifyHeap e f).Tidy := by
    intro e f hf
    refine ht.modifyHeap fun x hx hx' => ?_
    obtain ⟨hkey, hspace⟩ := hf x hx
    exact ⟨hkey, by rw [hspace]; exact hx'.sound, by rw [hspace]; exact hx'.unmarked,
      by rw [hspace]; exact hx'.mirrored⟩
  cases h with
  | transfer heaps => exact ht.of_heaps heaps
  | makeHeap capacity => exact Core.forall_heaps_addHeap ht ⟨rfl, .empty _ _⟩
  | makeLine | dequeue | bind | unbind | run | discard => exact ht
  | fetch | clone | drop | finish | write =>
    exact ht.modifyHeap fun x _ hx => ⟨rfl, hx.update _ (fun _ => rfl) fun _ => ⟨rfl, rfl⟩⟩
  | store => exact ht.modifyHeap fun x _ hx => ⟨rfl, hx.store _ _ _⟩
  | refer hx hn =>
    refine onReferences fun y hy => ?_
    rw [hx] at hy
    cases hy
    unfold Heap.newReference at hn
    split at hn <;> cases hn
    exact ⟨rfl, rfl⟩
  | adjust | settle | claim | retain | release | discharge =>
    exact onReferences fun x _ => ⟨rfl, rfl⟩
  | enqueue q h =>
    exact (onReferences (f := (·.retain h.position)) fun x _ => ⟨rfl, rfl⟩).of_heaps rfl
  | pause hx settings reason => exact ht.modifyHeap fun y _ hy => ⟨rfl, hy.pause settings reason⟩

end Act

theorem Core.tidy_empty : ({} : World).core.Tidy :=
  fun e x hx => by simp [Core.heaps, World.core] at hx

namespace World

section Survivors

theorem tidy_after (s : EngineSpec) (label : String) (moves : List Move) :
    ((start s label).after moves).core.Tidy :=
  invariant_after (fun _ h => h.tidy) Core.tidy_empty s label moves

theorem heaps_core {w : World} {e : Nat} {x : Runtime} (hx : w.engines[e]? = some x) :
    w.core.heaps[e]? = some x.heap := by
  simp [Core.heaps, core, hx, Engine.cell]

theorem tidy_heap {s : EngineSpec} {label : String} {moves : List Move} {e : Nat} {x : Runtime}
    (hx : ((start s label).after moves).engines[e]? = some x) : x.heap.key = e ∧ x.heap.Tidy :=
  tidy_after s label moves e x.heap (heaps_core hx)

/-- **A pause keeps exactly what is still needed.**  Of the objects of any heap of any run, those
survive that are reached from an object with a root, from the object of a tracked soft reference
that the policy keeps, or, if finalization is on, from an object with a finalizer that these do not
reach.  A survivor keeps its name, footprint and fields, nothing new appears, and no mark is
left. -/
theorem contains_pause_iff_survives (s : EngineSpec) (label : String) (moves : List Move) (e : Nat)
    (x : Runtime) (hx : ((start s label).after moves).engines[e]? = some x) (settings : Settings)
    (reason : Reason) : (∀ id, (x.heap.pause settings reason).heap.space.contains id = true ↔
      x.heap.Survives settings reason id) ∧
    (∀ id r', (x.heap.pause settings reason).heap.space.get? id = some r' →
      ∃ r, x.heap.space.get? id = some r ∧ r'.header.size = r.header.size ∧ r'.fields = r.fields) ∧
    ∀ id, (x.heap.pause settings reason).heap.space.isMarked id = false := by
  have ht := (tidy_heap hx).2
  refine ⟨fun id => Heap.contains_pause ht settings reason id, fun id r' hr => ?_, fun id => ?_⟩
  · obtain ⟨-, r, hr₀, ⟨-, rfl⟩ | ⟨-, rfl⟩⟩ := Heap.exists_of_get?_pause ht settings reason hr
    · exact ⟨r, hr₀, rfl, rfl⟩
    · exact ⟨_, hr₀, rfl, rfl⟩
  · exact (ht.pause settings reason).unmarked.isMarked id

/-- A runtime with the settings that are used where nothing else is said. -/
def standardEngine : EngineSpec := ⟨some .standard, .unreachable, false⟩

/-- A thread makes a chain of two objects and keeps a root of the last one. -/
def chainMoves : List Move :=
  [.call "main", .instruct 0 0 false (.chain "gc" 2 16 (some "last"))] ++
    List.replicate 14 (.step 0)

theorem contains_pause_first_link :
    ∃ x, ((start standardEngine "gc").after chainMoves).engines[0]? = some x ∧
      Trace.Rooted x.heap.space ⟨1, 1⟩ ∧ ¬Trace.Rooted x.heap.space ⟨0, 1⟩ ∧
      (x.heap.pause .standard .explicit).heap.space.contains ⟨0, 1⟩ = true := by
  have hsome : (((start standardEngine "gc").after chainMoves).engines[0]?).isSome = true := by
    decide +kernel
  have hrooted : (((start standardEngine "gc").after chainMoves).engines[0]?).map (fun x =>
        Trace.rooted x.heap.space) = some [⟨1, 1⟩] := by decide +kernel
  have hlinks : (((start standardEngine "gc").after chainMoves).engines[0]?).map (fun x =>
      ((x.heap.space.get? ⟨1, 1⟩).map (·.fields), x.heap.space.contains ⟨0, 1⟩)) =
      some (some #[some ⟨0, 1⟩], true) := by decide +kernel
  obtain ⟨x, hx⟩ := Option.isSome_iff_exists.mp hsome
  rw [hx] at hrooted hlinks
  simp only [Option.map_some, Option.some.injEq, Prod.mk.injEq,
    Option.map_eq_some_iff] at hrooted hlinks
  obtain ⟨⟨r, hr, hfields⟩, hc⟩ := hlinks
  have hlast : Trace.Rooted x.heap.space ⟨1, 1⟩ := Trace.mem_rooted.mp (by rw [hrooted]; decide)
  refine ⟨x, hx, hlast, fun hfirst => ?_, ?_⟩
  · have hmem := Trace.mem_rooted.mpr hfirst
    rw [hrooted] at hmem
    revert hmem
    decide
  · refine ((contains_pause_iff_survives standardEngine "gc" chainMoves 0 x hx .standard
        .explicit).1 ⟨0, 1⟩).mpr ?_
    exact .link (.base (.inl hlast) (Space.contains_of_get? hr)) ⟨r, hr, by simp [hfields]⟩ hc

end Survivors

end World

end ManagedHeap
