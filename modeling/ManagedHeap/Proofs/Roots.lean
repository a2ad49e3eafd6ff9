import ManagedHeap.Proofs.Survivors

/-!
# Roots are counted

**Input.**  A core and the hand of the thread that acts.

**Algorithm.**  Every root is somebody's: it is an asset itself, or it comes with a job or with a
finalizer, be that finalizer attached to an object or not.  An act that makes or drops a root counts
it on the record of its object.

**Results.**  The counts on records are exact (`Act.balanced`), so the object of every root that
somebody has is there (`Core.Balanced.live`), and so is the object in every field (`Act.linked`).
-/

namespace ManagedHeap

variable {r : Root} {id : ObjectId} {x : Heap Finalizer}

namespace Space

variable {φ : Type} {s s' : Space φ}

section Attached

/-- The finalizers of stored objects, in the order of their slots. -/
def attached (s : Space φ) : List (ObjectId × φ) :=
  s.ids.filterMap fun id => ((s.get? id).bind (·.finalizer)).map fun f => (id, f)

theorem mem_attached {f : φ} : (id, f) ∈ s.attached ↔
    ∃ r, s.get? id = some r ∧ r.finalizer = some f := by
  unfold attached
  simp only [List.mem_filterMap, Option.map_eq_some_iff, Option.bind_eq_some_iff, Prod.mk.injEq]
  constructor
  · rintro ⟨_, -, _, hr, rfl, rfl⟩
    exact hr
  · rintro ⟨r, hr, hf⟩
    exact ⟨id, mem_ids.mpr ⟨r, hr⟩, f, ⟨r, hr, hf⟩, rfl, rfl⟩

theorem nodup_attached (s : Space φ) : s.attached.Nodup := by
  refine List.Nodup.filterMap ?_ (nodup_ids s)
  intro a b x ha hb
  obtain ⟨f, -, rfl⟩ := Option.map_eq_some_iff.mp ha
  obtain ⟨g, -, hg⟩ := Option.map_eq_some_iff.mp hb
  exact (congrArg Prod.fst hg).symm

theorem attached_perm {l : List (ObjectId × φ)} (hl : l.Nodup) (h : ∀ x, x ∈ s.attached ↔ x ∈ l) :
    s.attached.Perm l :=
  (List.perm_ext_iff_of_nodup (nodup_attached s) hl).mpr h

end Attached

section Links

def Linked (s : Space φ) : Prop := ∀ a b, s.Links a b → s.contains b = true

theorem Linked.update (h : s.Linked) {f : Record φ → Record φ} (hf : ∀ r, (f r).fields = r.fields) :
    (s.update id f).Linked := by
  rintro a b ⟨r, hr, hb⟩
  rw [contains_update]
  rw [get?_update] at hr
  split at hr
  · next ha =>
      subst ha
      obtain ⟨r₀, hr₀, rfl⟩ := Option.map_eq_some_iff.mp hr
      exact h a b ⟨r₀, hr₀, by rwa [hf] at hb⟩
  · exact h a b ⟨r, hr, hb⟩

end Links

section Pins

/-- The number of roots of an object; zero if there is no such object. -/
def pins (s : Space φ) (id : ObjectId) : Nat :=
  match s.get? id with
  | some r => r.roots
  | none => 0

theorem contains_of_pins_pos (h : 0 < s.pins id) : s.contains id = true := by
  unfold pins at h
  split at h
  · next r hr => exact contains_of_get? hr
  · omega

theorem pins_of_get? {r : Record φ} (h : s.get? id = some r) : s.pins id = r.roots := by
  simp [pins, h]

theorem pins_update (id : ObjectId) {f : Record φ → Record φ} (id' : ObjectId) :
    (s.update id f).pins id' =
      if id' = id then ((s.get? id).map fun r => (f r).roots).getD 0 else s.pins id' := by
  unfold pins
  rw [get?_update]
  by_cases h : id' = id
  · rw [if_pos h, if_pos h]
    cases s.get? id <;> rfl
  · rw [if_neg h, if_neg h]

theorem pins_pin (h : s.contains id = true) (id' : ObjectId) :
    (s.pin id).pins id' = s.pins id' + if id' = id then 1 else 0 := by
  obtain ⟨r, hr⟩ := contains_iff.mp h
  unfold pin
  rw [pins_update]
  by_cases hid : id' = id
  · subst hid
    simp [hr, pins]
  · simp [hid]

theorem pins_unpin (id id' : ObjectId) :
    (s.unpin id).pins id' = s.pins id' - if id' = id then 1 else 0 := by
  unfold unpin
  rw [pins_update]
  by_cases hid : id' = id
  · subst hid
    unfold pins
    cases hr : s.get? id' <;> simp
  · simp [hid]

end Pins

end Space

namespace Heap

variable {h : Heap Finalizer} {h' : Heap Finalizer}

section References

variable {i id : Nat} {kind : ReferenceKind} {queue : Option Nat}
  (hn : h.newReference id kind r queue = .ok (i, h'))

include hn

theorem key_newReference : h'.key = h.key := by
  unfold newReference at hn
  split at hn <;> cases hn
  rfl

theorem owns_of_newReference : r.heap = h.key := by
  unfold newReference at hn
  split at hn
  · cases hn
  · next howns => simpa [owns] using howns

theorem space_newReference : h'.space = h.space := by
  unfold newReference at hn
  split at hn <;> cases hn
  rfl

end References

section Links

variable {index size fields : Nat} {f : Option Finalizer}

theorem owns_of_checkField {value : Option Root} (h' : h.checkField r index value = .ok ()) :
    r.heap = h.key ∧ ∀ v, value = some v → v.heap = h.key := by
  unfold checkField at h'
  cases howns : h.owns r with
  | false => simp [howns, bind, Except.bind, throw, throwThe, MonadExceptOf.throw] at h'
  | true =>
    refine ⟨of_decide_eq_true howns, fun v hv => ?_⟩
    subst hv
    cases hv : h.owns v with
    | false => simp [howns, hv, bind, Except.bind, throw, throwThe, MonadExceptOf.throw] at h'
    | true => exact of_decide_eq_true hv

theorem linked_writeField (hl : h.space.Linked) {value : Option ObjectId}
    (hv : ∀ id, value = some id → h.space.contains id = true) :
    (h.writeField r index value).space.Linked := by
  rintro a b ⟨record, hr, hb⟩
  unfold Heap.writeField at hr ⊢
  dsimp only at hr ⊢
  rw [Space.contains_update]
  rw [Space.get?_update] at hr
  split at hr
  · next ha =>
      subst ha
      obtain ⟨old, hold, rfl⟩ := Option.map_eq_some_iff.mp hr
      rcases Array.mem_or_eq_of_mem_setIfInBounds hb with hb | hb
      · exact hl _ b ⟨old, hold, hb⟩
      · exact hv b hb.symm
  · exact hl a b ⟨record, hr, hb⟩

theorem contains_store (ht : h.Tidy) (hc : h.space.contains id = true) :
    (h.store size fields f).space.contains id = true := by
  obtain ⟨r, hr⟩ := Space.contains_iff.mp hc
  unfold store Space.contains
  dsimp only
  rw [ht.sound.get?_insert]
  split
  · rfl
  · rw [hr]
    rfl

theorem linked_store (ht : h.Tidy) (hl : h.space.Linked) :
    (h.store size fields f).space.Linked := by
  rintro a b ⟨record, hr, hb⟩
  unfold store at hr ⊢
  dsimp only at hr ⊢
  rw [ht.sound.get?_insert] at hr
  split at hr
  · cases hr
    simp at hb
  · exact contains_store ht (hl a b ⟨record, hr, hb⟩)

theorem linked_pause (ht : h.Tidy) (hl : h.space.Linked) (settings : Settings) (reason : Reason) :
    (h.pause settings reason).heap.space.Linked := by
  rintro a b ⟨r', hr', hb⟩
  rw [contains_pause ht]
  obtain ⟨hsurv, r, hr, hcases⟩ := exists_of_get?_pause ht settings reason hr'
  have hfields : r'.fields = r.fields := by rcases hcases with ⟨-, rfl⟩ | ⟨-, rfl⟩ <;> rfl
  have hlink : h.space.Links a b := ⟨r, hr, by rwa [hfields] at hb⟩
  exact .link hsurv hlink (hl a b hlink)

end Links

section Attachments

variable {f : Finalizer}

def attachments (h : Heap Finalizer) : Multiset (Root × Finalizer) :=
  ↑(h.space.attached.map fun a => ((⟨h.key, a.1⟩ : Root), a.2))

theorem mem_attachments :
    (r, f) ∈ h.attachments ↔ r.heap = h.key ∧ (r.object, f) ∈ h.space.attached := by
  rcases r with ⟨key, id⟩
  unfold attachments
  simp only [Multiset.mem_coe, List.mem_map, Prod.mk.injEq, Root.mk.injEq, Prod.exists]
  constructor
  · rintro ⟨_, _, hmem, ⟨rfl, rfl⟩, rfl⟩
    exact ⟨rfl, hmem⟩
  · rintro ⟨rfl, hmem⟩
    exact ⟨id, f, hmem, ⟨rfl, rfl⟩, rfl⟩

theorem attachments_eq {l : List (ObjectId × Finalizer)}
    (hl : l.Nodup) (hm : ∀ x, x ∈ h.space.attached ↔ x ∈ l) :
    h.attachments = ↑(l.map fun a => ((⟨h.key, a.1⟩ : Root), a.2)) :=
  Multiset.coe_eq_coe.mpr ((Space.attached_perm hl hm).map _)

theorem attachments_congr (hk : h'.key = h.key)
    (hf : ∀ id, (h'.space.get? id).bind (·.finalizer) = (h.space.get? id).bind (·.finalizer)) :
    h'.attachments = h.attachments := by
  have hm : ∀ x, x ∈ h'.space.attached ↔ x ∈ h.space.attached := by
    rintro ⟨id, f⟩
    rw [Space.mem_attached, Space.mem_attached, ← Option.bind_eq_some_iff,
      ← Option.bind_eq_some_iff, hf id]
  rw [attachments_eq (Space.nodup_attached _) hm, hk]
  rfl

theorem attachments_update (id : ObjectId) {f : Record Finalizer → Record Finalizer} {n : Nat}
    (hf : ∀ r, (f r).finalizer = r.finalizer) :
    ({ h with space := h.space.update id f, faults := n } : Heap Finalizer).attachments =
      h.attachments := by
  refine attachments_congr rfl fun id' => ?_
  dsimp only
  rw [Space.get?_update]
  split
  · next hid =>
      subst hid
      cases h.space.get? id' <;> simp [hf]
  · rfl

theorem attachments_empty (key capacity : Nat) : (Heap.empty key capacity).attachments = 0 := rfl

theorem attachments_store (ht : h.Tidy) (size fields : Nat) (f : Option Finalizer) :
    (h.store size fields f).attachments =
      ↑(f.toList.map fun f => (h.nextRoot, f)) + h.attachments := by
  have hfresh : ∀ g, (h.space.nextId, g) ∉ h.space.attached := by
    intro g hg
    obtain ⟨r, hr, -⟩ := Space.mem_attached.mp hg
    rw [ht.sound.get?_nextId] at hr
    cases hr
  have hnodup : (f.toList.map (fun f => (h.space.nextId, f)) ++ h.space.attached).Nodup := by
    cases f with
    | none => exact Space.nodup_attached _
    | some f => exact List.nodup_cons.mpr ⟨hfresh f, Space.nodup_attached _⟩
  rw [attachments_eq hnodup ?_, List.map_append, List.map_map, ← Multiset.coe_add]
  · rfl
  · rintro ⟨id, g⟩
    rw [Space.mem_attached, List.mem_append, Space.mem_attached]
    unfold store
    dsimp only
    rw [ht.sound.get?_insert]
    by_cases hid : id = h.space.nextId
    · subst hid
      have hnone := ht.sound.get?_nextId
      cases f <;> simp [hnone, eq_comm]
    · cases f <;> simp [hid]

theorem mem_attached_pause (ht : h.Tidy) (settings : Settings) (reason : Reason) :
    (id, f) ∈ (h.pause settings reason).heap.space.attached ↔
      (id, f) ∈ h.space.attached ∧ h.Held settings reason id := by
  rw [Space.mem_attached, Space.mem_attached]
  constructor
  · rintro ⟨r', hr', hf⟩
    obtain ⟨hsurv, r, hr, ⟨-, rfl⟩ | ⟨hs, rfl⟩⟩ := exists_of_get?_pause ht settings reason hr'
    · simp [Record.scheduled] at hf
    · refine ⟨⟨_, hr, hf⟩, ?_⟩
      -- a survivor that nothing holds would have been scheduled
      by_contra hheld
      cases he : settings.finalizerEnabled with
      | true => exact hs ⟨he, hheld, _, f, hr, hf⟩
      | false => exact hheld (hsurv.held_of_disabled he)
  · rintro ⟨⟨r, hr, hf⟩, hheld⟩
    have hs : ¬h.Scheduled settings reason id := fun hs => hs.2.1 hheld
    refine ⟨r, ?_, hf⟩
    rw [get?_pause settings reason ht.unmarked ht.mirrored, if_neg hs, if_pos hheld.survives, hr]

theorem attachments_pause (ht : h.Tidy) (settings : Settings) (reason : Reason) :
    h.attachments = ↑((h.pause settings reason).jobs.map fun j => (j.object, j.finalizer)) +
      (↑((h.pause settings reason).discarded.map fun d => ((⟨h.key, d.1⟩ : Root), d.2)) +
        (h.pause settings reason).heap.attachments) := by
  have hu := ht.unmarked
  have hm := ht.mirrored
  have hjobs : (h.pause settings reason).jobs.map (fun j => (j.object, j.finalizer)) =
      (h.toRun settings reason).map fun a => ((⟨h.key, a.1⟩ : Root), a.2) := by
    rw [jobs_pause settings reason hu hm, List.map_map]
    rfl
  have hdiscarded : ∀ x, x ∈ (h.pause settings reason).discarded ↔
      settings.finalizerEnabled = false ∧ ¬h.Held settings reason x.1 ∧ x ∈ h.space.attached := by
    rintro ⟨id, f⟩
    rw [mem_discarded_pause settings reason hu hm, Space.mem_attached]
  have htoRun : ∀ x, x ∈ h.toRun settings reason ↔
      settings.finalizerEnabled = true ∧ ¬h.Held settings reason x.1 ∧ x ∈ h.space.attached := by
    rintro ⟨id, f⟩
    rw [mem_toRun settings reason hu hm, Space.mem_attached]
    constructor
    · rintro ⟨⟨he, hheld, -⟩, hr⟩
      exact ⟨he, hheld, hr⟩
    · rintro ⟨he, hheld, r, hr, hf⟩
      exact ⟨⟨he, hheld, r, f, hr, hf⟩, r, hr, hf⟩
  have hafter : ∀ x, x ∈ (h.pause settings reason).heap.space.attached ↔ x ∈ h.space.attached ∧
      h.Held settings reason x.1 := fun x => mem_attached_pause ht settings reason
  have hnodup₁ : (h.toRun settings reason).Nodup := (nodup_map_fst_toRun settings reason).of_map _
  have hnodup₂ : (h.pause settings reason).discarded.Nodup := by
    rw [discarded_pause settings reason hu hm]
    split
    · exact List.nodup_nil
    · exact (nodup_map_fst_finalizerPhase settings reason).of_map _
  have hnodup : (h.toRun settings reason ++ ((h.pause settings reason).discarded ++
      (h.pause settings reason).heap.space.attached)).Nodup := by
    refine List.Nodup.append hnodup₁ (List.Nodup.append hnodup₂ (Space.nodup_attached _) ?_) ?_
    · intro x hx hx'
      exact ((hdiscarded x).mp hx).2.1 ((hafter x).mp hx').2
    · intro x hx hx'
      obtain ⟨he, hheld, -⟩ := (htoRun x).mp hx
      rcases List.mem_append.mp hx' with hx' | hx'
      · rw [((hdiscarded x).mp hx').1] at he
        cases he
      · exact hheld ((hafter x).mp hx').2
  rw [hjobs, attachments_eq hnodup ?_]
  · rw [List.map_append, List.map_append, ← Multiset.coe_add, ← Multiset.coe_add]
    rfl
  · intro x
    rw [List.mem_append, List.mem_append, htoRun, hdiscarded, hafter]
    by_cases hheld : h.Held settings reason x.1
    · simp [hheld]
    · cases settings.finalizerEnabled <;> simp [hheld]

end Attachments

section Pauses

/-- The jobs of a pause have one root each, and nothing that has a root goes away. -/
theorem pins_pause (ht : h.Tidy) (settings : Settings) (reason : Reason) (id : ObjectId) :
    (h.pause settings reason).heap.space.pins id =
      h.space.pins id + ((h.pause settings reason).jobs.map (·.object)).count ⟨h.key, id⟩ := by
  have hu := ht.unmarked
  have hm := ht.mirrored
  have hobjects : (h.pause settings reason).jobs.map (·.object) =
      ((h.toRun settings reason).map Prod.fst).map fun id => ⟨h.key, id⟩ := by
    rw [jobs_pause settings reason hu hm, List.map_map, List.map_map]
    rfl
  have hcount : ((h.pause settings reason).jobs.map (·.object)).count ⟨h.key, id⟩ =
      ((h.toRun settings reason).map Prod.fst).count id := by
    rw [hobjects]
    exact List.count_map_of_injective _ _ (fun a b hab => (Root.mk.inj hab).2) id
  have hmem : id ∈ (h.toRun settings reason).map Prod.fst ↔ h.Scheduled settings reason id := by
    rw [← exists_mem_toRun_iff settings reason hu hm, List.mem_map]
  rw [hcount]
  unfold Space.pins
  rw [get?_pause settings reason hu hm]
  by_cases hs : h.Scheduled settings reason id
  · obtain ⟨r, f, hr, -⟩ := hs.2.2
    rw [if_pos hs, hr, List.count_eq_one_of_mem (nodup_map_fst_toRun settings reason) (hmem.mpr hs)]
    rfl
  · rw [if_neg hs, List.count_eq_zero_of_not_mem (mt hmem.mp hs), Nat.add_zero]
    by_cases hsurv : h.Survives settings reason id
    · rw [if_pos hsurv]
    · rw [if_neg hsurv]
      cases hr : h.space.get? id with
      | none => rfl
      | some r =>
        -- what has a root would have survived
        by_contra hne
        refine hsurv (.base (.inl ⟨r, hr, ?_⟩) (Space.contains_of_get? hr))
        exact Nat.pos_of_ne_zero fun h0 => hne h0.symm

end Pauses

end Heap

theorem Root.object_eq_iff {r' : Root} (h : r'.heap = r.heap) : r'.object = r.object ↔ r' = r := by
  rcases r with ⟨k, i⟩
  rcases r' with ⟨k', i'⟩
  simp_all

/-- The roots that come with finalizers of objects. -/
def heldRoots (attached : Multiset (Root × Finalizer)) : Multiset Root :=
  attached.bind fun a => ↑a.2.held

theorem heldRoots_add (a b : Multiset (Root × Finalizer)) :
    heldRoots (a + b) = heldRoots a + heldRoots b :=
  Multiset.add_bind _ _ _

theorem heldRoots_coe (l : List (Root × Finalizer)) : heldRoots ↑l = ↑(l.flatMap (·.2.held)) :=
  Multiset.coe_bind _ _

namespace Asset

@[simp]
theorem gather_roots_root (l : List Root) : gather roots ↑(l.map root) = ↑l := by
  rw [gather_coe, List.flatMap_map]
  simp [roots]

@[simp]
theorem gather_roots_closure (l : List Finalizer) :
    gather roots ↑(l.map closure) = ↑(l.flatMap (·.held)) := by
  rw [gather_coe, List.flatMap_map]
  rfl

theorem roots_job (j : Job Finalizer) :
    (↑(job j).roots : Multiset Root) = ↑[j.object] + ↑j.finalizer.held := rfl

theorem gather_roots_job (jobs : List (Job Finalizer)) : gather roots ↑(jobs.map job) =
      ↑(jobs.map (·.object)) + heldRoots ↑(jobs.map fun j => (j.object, j.finalizer)) := by
  rw [heldRoots_coe, gather_coe, List.flatMap_map, List.flatMap_map]
  induction jobs with
  | nil => rfl
  | cons j rest ih =>
    simp only [List.flatMap_cons, List.map_cons, ← Multiset.coe_add] at ih ⊢
    rw [ih, roots, ← Multiset.cons_coe, ← Multiset.cons_coe, ← Multiset.singleton_add,
      ← Multiset.singleton_add]
    abel

end Asset

namespace Core

variable {c c' : Core} {p p' : Multiset Asset} {e : Nat} {f : Heap Finalizer → Heap Finalizer}

section Counting

def attached (c : Core) : Multiset (Root × Finalizer) := total c.heaps Heap.attachments

/-- The number of roots that is kept on the record of an object. -/
def pins (c : Core) (r : Root) : Nat :=
  ((c.heaps[r.heap]?).map fun x => x.space.pins r.object).getD 0

def roots (c : Core) (p : Multiset Asset) : Multiset Root :=
  Asset.gather Asset.roots (c.assets + p) + heldRoots c.attached

def Balanced (c : Core) (p : Multiset Asset) : Prop := ∀ r, c.pins r = (c.roots p).count r

theorem attached_of_heaps (heaps : c'.heaps = c.heaps) : c'.attached = c.attached := by
  unfold attached
  rw [heaps]

theorem pins_of_heaps (heaps : c'.heaps = c.heaps) (r : Root) : c'.pins r = c.pins r := by
  unfold pins
  rw [heaps]

theorem exists_attached_modifyHeap (hx : c.heaps[e]? = some x)
    (f : Heap Finalizer → Heap Finalizer) : ∃ rest, c.attached = x.attachments + rest ∧
    (c.modifyHeap e f).attached = (f x).attachments + rest := by
  unfold attached
  rw [heaps_modifyHeap]
  exact exists_total_modify hx f Heap.attachments

theorem attached_modifyHeap (h : ∀ x, c.heaps[e]? = some x → (f x).attachments = x.attachments) :
    (c.modifyHeap e f).attached = c.attached := by
  cases hx : c.heaps[e]? with
  | none => rw [modifyHeap_eq_self fun x hx' => by rw [hx] at hx'; cases hx']
  | some x =>
    obtain ⟨rest, h₁, h₂⟩ := exists_attached_modifyHeap hx f
    rw [h₁, h₂, h x hx]

theorem pins_modifyHeap (hx : c.heaps[e]? = some x) (r : Root) :
    (c.modifyHeap e f).pins r = if r.heap = e then (f x).space.pins r.object else c.pins r := by
  unfold pins
  rw [heaps_modifyHeap, Array.getElem?_modify]
  by_cases he : r.heap = e
  · subst he
    simp [hx]
  · rw [if_neg (Ne.symm he), if_neg he]

theorem pins_modifyHeap_of_eq
    (h : ∀ x id, c.heaps[e]? = some x → (f x).space.pins id = x.space.pins id) (r : Root) :
    (c.modifyHeap e f).pins r = c.pins r := by
  cases hx : c.heaps[e]? with
  | none => rw [modifyHeap_eq_self fun x hx' => by rw [hx] at hx'; cases hx']
  | some x =>
    rw [pins_modifyHeap hx]
    split
    · next he =>
        subst he
        rw [h x _ hx]
        simp [pins, hx]
    · rfl

theorem pins_of_heap (hx : c.heaps[r.heap]? = some x) : c.pins r = x.space.pins r.object := by
  simp [pins, hx]

theorem pins_modifyHeap_add {made : List Root}
    (hx : c.heaps[e]? = some x) (hmade : ∀ r ∈ made, r.heap = e)
    (h : ∀ id, (f x).space.pins id = x.space.pins id + made.count ⟨e, id⟩) (r : Root) :
    (c.modifyHeap e f).pins r = c.pins r + made.count r := by
  rw [pins_modifyHeap hx]
  split
  · next he =>
      subst he
      rw [h, pins_of_heap hx]
  · next he => rw [List.count_eq_zero_of_not_mem (mt (hmade r) he), Nat.add_zero]

theorem roots_modifyHeap (h : ∀ x, c.heaps[e]? = some x → (f x).attachments = x.attachments) :
    (c.modifyHeap e f).roots p = c.roots p := by
  unfold roots
  rw [attached_modifyHeap h, assets_modifyHeap]

theorem roots_cons_root : c.roots (.root r ::ₘ p) = r ::ₘ c.roots p := by
  unfold roots
  rw [Multiset.add_cons, Asset.gather_cons, add_assoc]
  exact Multiset.singleton_add r _

theorem exists_live_of_pins_pos (h : 0 < c.pins r) :
    ∃ x, c.heaps[r.heap]? = some x ∧ x.space.contains r.object = true := by
  unfold pins at h
  cases hx : c.heaps[r.heap]? with
  | none => simp [hx] at h
  | some x =>
    rw [hx] at h
    exact ⟨x, rfl, Space.contains_of_pins_pos h⟩

theorem gather_lines (lines : Array Line) :
    Asset.gather Asset.roots (total lines fun x => ↑(x.entries.map Asset.handle)) = 0 := by
  refine Multiset.eq_zero_of_forall_notMem fun r hr => ?_
  obtain ⟨a, ha, hr⟩ := Multiset.mem_bind.mp hr
  obtain ⟨x, -, ha⟩ := mem_total.mp ha
  obtain ⟨h, -, rfl⟩ := List.mem_map.mp ha
  simp [Asset.roots] at hr

theorem roots_of_lines (lines : Array Line) :
    ({ c with lines := lines } : Core).roots p = c.roots p := by
  have hassets : Asset.gather Asset.roots ({ c with lines := lines } : Core).assets =
      Asset.gather Asset.roots c.assets := by
    unfold assets
    simp only [Asset.gather_add, gather_lines]
    rfl
  unfold roots
  rw [Asset.gather_add, hassets, ← Asset.gather_add]
  rfl

theorem pins_addHeap {capacity : Nat} (r : Root) :
    ({ c with cells := c.cells.push ⟨Heap.empty c.cells.size capacity, []⟩ } : Core).pins r =
      c.pins r := by
  unfold pins heaps
  rw [Array.map_push, Array.getElem?_push]
  split
  · next he =>
      rw [he, Array.getElem?_eq_none le_rfl]
      rfl
  · rfl

theorem assets_addHeap {x : Cell} (hc : x.channel = []) :
    ({ c with cells := c.cells.push x } : Core).assets = c.assets := by
  unfold assets channels
  simp only [Array.map_push, total_push, hc, add_zero, List.flatMap_nil, Multiset.coe_nil]

theorem assets_addLine (n : Nat) :
    ({ c with lines := c.lines.push ⟨[], n⟩ } : Core).assets = c.assets := by
  unfold assets channels
  simp only [total_push, add_zero, List.map_nil, Multiset.coe_nil]

theorem roots_addHeap {x : Cell} (hx : x.heap.attachments = 0) (hc : x.channel = []) :
    ({ c with cells := c.cells.push x } : Core).roots p = c.roots p := by
  unfold roots
  rw [assets_addHeap hc]
  unfold attached heaps
  simp only [Array.map_push, total_push, hx, add_zero]

theorem mem_roots_of_owned (h : c.Owned p r) : r ∈ c.roots p := by
  obtain ⟨a, ha, hr⟩ := h
  exact Multiset.mem_add.mpr (.inl (Multiset.mem_bind.mpr ⟨a, ha, hr⟩))

def Linked (c : Core) : Prop :=
  ∀ (e : Nat) (x : Heap Finalizer), c.heaps[e]? = some x → x.space.Linked

theorem Linked.of_heaps (hl : c.Linked) (heaps : c'.heaps = c.heaps) : c'.Linked := by
  unfold Linked
  rwa [heaps]

theorem Linked.modifyHeap (hl : c.Linked)
    (h : ∀ x, c.heaps[e]? = some x → x.space.Linked → (f x).space.Linked) :
    (c.modifyHeap e f).Linked :=
  forall_heaps_modifyHeap hl h

/-- **The object of every root is there.** -/
theorem Balanced.live (hb : c.Balanced p) (hr : r ∈ c.roots p) :
    ∃ x, c.heaps[r.heap]? = some x ∧ x.space.contains r.object = true :=
  exists_live_of_pins_pos (by rw [hb r]; exact Multiset.count_pos.mpr hr)

theorem Balanced.rooted (hb : c.Balanced p) (hr : r ∈ c.roots p) :
    ∃ x, c.heaps[r.heap]? = some x ∧ Trace.Rooted x.space r.object := by
  obtain ⟨x, hx, hlive⟩ := hb.live hr
  obtain ⟨record, hrecord⟩ := Space.contains_iff.mp hlive
  refine ⟨x, hx, record, hrecord, ?_⟩
  rw [← Space.pins_of_get? hrecord, ← pins_of_heap hx, hb r]
  exact Multiset.count_pos.mpr hr

end Counting

end Core

namespace Act

variable {c c' : Core} {p p' : Multiset Asset} {deeds : List Deed}

section Balance

variable {e : Nat} (hb : c.Balanced p)

include hb

theorem balanced_of_eq (hpins : ∀ r, c'.pins r = c.pins r)
    (hroots : c'.roots p' = c.roots p) : c'.Balanced p' := fun r => by rw [hpins, hroots, hb r]

theorem balanced_of_roots (hp : Asset.gather Asset.roots p' = Asset.gather Asset.roots p) :
    c.Balanced p' := by
  refine balanced_of_eq hb (fun _ => rfl) ?_
  unfold Core.roots
  rw [Asset.gather_add, Asset.gather_add, hp]

theorem balanced_of_spaces {f : Heap Finalizer → Heap Finalizer}
    (hf : ∀ x, c.heaps[e]? = some x → (f x).key = x.key ∧ (f x).space = x.space)
    (hp : Asset.gather Asset.roots p' = Asset.gather Asset.roots p) :
    (c.modifyHeap e f).Balanced p' := by
  refine balanced_of_eq (balanced_of_roots hb hp)
    (Core.pins_modifyHeap_of_eq fun x id hx => by rw [(hf x hx).2]) ?_
  exact Core.roots_modifyHeap fun x hx =>
    Heap.attachments_congr (hf x hx).1 fun id => by rw [(hf x hx).2]

theorem balanced_pin (hx : c.heaps[r.heap]? = some x) (hc : x.space.contains r.object = true) :
    (c.modifyHeap r.heap (·.pin r.object)).Balanced (.root r ::ₘ p) := by
  have hone : ∀ id, (x.space.pin r.object).pins id = x.space.pins id + [r].count ⟨r.heap, id⟩ :=
    fun id => by
    rw [Space.pins_pin hc, List.count_singleton]
    simp only [beq_iff_eq, eq_comm (a := r), ← Root.object_eq_iff]
  have hroots : (c.modifyHeap r.heap (·.pin r.object)).roots p = c.roots p :=
    Core.roots_modifyHeap fun x _ => Heap.attachments_update _ fun _ => rfl
  intro r'
  rw [Core.pins_modifyHeap_add hx (by simp) hone, Core.roots_cons_root, hroots, hb r',
    Multiset.count_cons, List.count_singleton]
  simp only [beq_iff_eq, eq_comm (a := r)]

omit hb in
theorem balanced_unpin (hb : c.Balanced (.root r ::ₘ p)) :
    (c.modifyHeap r.heap (·.unpin r.object)).Balanced p := by
  have hmem : r ∈ c.roots (.root r ::ₘ p) :=
    Core.mem_roots_of_owned ⟨.root r, by simp, by simp [Asset.roots]⟩
  obtain ⟨x, hx, -⟩ := hb.live hmem
  have hsame : (c.modifyHeap r.heap (·.unpin r.object)).roots p = c.roots p :=
    Core.roots_modifyHeap fun x _ => Heap.attachments_update _ fun _ => rfl
  intro r'
  have hroots := hb r'
  rw [Core.roots_cons_root, Multiset.count_cons] at hroots
  rw [Core.pins_modifyHeap hx, hsame]
  by_cases he : r'.heap = r.heap
  · rw [if_pos he]
    show (x.space.unpin r.object).pins r'.object = _
    rw [Space.pins_unpin, ← Core.pins_of_heap (he ▸ hx), hroots]
    simp only [Root.object_eq_iff he]
    omega
  · rw [if_neg he, hroots, if_neg fun h => he (by rw [h]), add_zero]

theorem balanced_update {f : Record Finalizer → Record Finalizer}
    (hf : ∀ r, (f r).roots = r.roots ∧ (f r).finalizer = r.finalizer) :
    (c.modifyHeap e fun x => { x with space := x.space.update id f }).Balanced p := by
  refine balanced_of_eq hb (Core.pins_modifyHeap_of_eq fun x id' _ => ?_) ?_
  · rw [Space.pins_update]
    split
    · next hid =>
        subst hid
        unfold Space.pins
        cases x.space.get? id' <;> simp [(hf _).1]
    · rfl
  · exact Core.roots_modifyHeap fun x _ => Heap.attachments_update _ fun r => (hf r).2

omit hb

theorem balanced_store (ht : c.Tidy) (hx : c.heaps[e]? = some x) (size fields : Nat)
    (f : Option Finalizer) (hb : c.Balanced (↑(f.toList.map Asset.closure) + p)) :
    (c.modifyHeap e (·.store size fields f)).Balanced (.root x.nextRoot ::ₘ p) := by
  obtain ⟨rfl, htidy⟩ := ht e x hx
  obtain ⟨rest, hbefore, hafter⟩ := Core.exists_attached_modifyHeap hx (·.store size fields f)
  rw [Heap.attachments_store htidy] at hafter
  intro r
  have hroots := hb r
  unfold Core.roots at hroots ⊢
  have hheld :
      heldRoots ↑(f.toList.map fun f => (x.nextRoot, f)) = ↑(f.toList.flatMap (·.held)) := by
    rw [heldRoots_coe, List.flatMap_map]
  rw [hbefore] at hroots
  have hone : ∀ id,
      (x.store size fields f).space.pins id = x.space.pins id + [x.nextRoot].count ⟨x.key, id⟩ := by
    intro id
    unfold Space.pins Heap.store
    dsimp only
    rw [htidy.sound.get?_insert, List.count_singleton]
    by_cases hid : id = x.space.nextId
    · simp [hid, htidy.sound.get?_nextId, Heap.nextRoot]
    · simp [hid, Heap.nextRoot, Ne.symm hid]
  rw [hafter, Core.assets_modifyHeap, Core.pins_modifyHeap_add hx (by simp [Heap.nextRoot]) hone]
  simp only [Asset.gather_add, Asset.gather_cons, Asset.gather_roots_closure, heldRoots_add, hheld,
    Multiset.count_add] at hroots ⊢
  rw [hroots]
  have hcount : Multiset.count r ↑(Asset.root x.nextRoot).roots = [x.nextRoot].count r :=
    Multiset.coe_count _ _
  omega

/-- A collection makes one root for every job, and moves the finalizers that it takes. -/
theorem balanced_pause (ht : c.Tidy) (hx : c.heaps[e]? = some x) (settings : Settings)
    (reason : Reason) (hb : c.Balanced p) : (c.modifyHeap e fun y =>
      (y.pause settings reason).heap).Balanced (↑((x.pause settings reason).discarded.map fun d =>
      Asset.closure d.2) + (↑((x.pause settings reason).pending.map fun i => Asset.pending ⟨e, i⟩) +
      (↑((x.pause settings reason).jobs.map Asset.job) + p))) := by
  obtain ⟨rfl, htidy⟩ := ht e x hx
  obtain ⟨rest, hbefore, hafter⟩ :=
    Core.exists_attached_modifyHeap hx fun y => (y.pause settings reason).heap
  rw [Heap.attachments_pause htidy settings reason] at hbefore
  intro r
  have hroots := hb r
  unfold Core.roots at hroots ⊢
  rw [hbefore] at hroots
  rw [hafter, Core.assets_modifyHeap,
    Core.pins_modifyHeap_add hx ?_ (Heap.pins_pause htidy settings reason), hroots]
  have hpending : Asset.gather Asset.roots ↑((x.pause settings reason).pending.map fun i =>
        Asset.pending ⟨x.key, i⟩) = 0 := Asset.gather_map_of_nil _ fun _ => rfl
  have hdiscarded : Asset.gather Asset.roots ↑((x.pause settings reason).discarded.map fun d =>
        Asset.closure d.2) = heldRoots ↑((x.pause settings reason).discarded.map fun d =>
        ((⟨x.key, d.1⟩ : Root), d.2)) := by
    rw [Asset.gather_coe, heldRoots_coe, List.flatMap_map, List.flatMap_map]
    rfl
  simp only [Asset.gather_add, Asset.gather_roots_job, hpending, hdiscarded, heldRoots_add,
    Multiset.count_add, Multiset.count_zero, Multiset.coe_count]
  · omega
  · intro r hr
    obtain ⟨j, hj, rfl⟩ := List.mem_map.mp hr
    exact ((Heap.mem_jobs_pause settings reason htidy.unmarked htidy.mirrored).mp hj).1

/-- **The roots of an object are counted on its record.** -/
theorem balanced (h : Act L c p deeds c' p') (ht : c.Tidy) (hb : c.Balanced p) :
    c'.Balanced p' := by
  cases h with
  | transfer heaps _ _ owners =>
    refine balanced_of_eq hb (Core.pins_of_heaps heaps) ?_
    unfold Core.roots
    rw [owners, Core.attached_of_heaps heaps]
  | makeHeap capacity => exact balanced_of_eq hb Core.pins_addHeap (Core.roots_addHeap rfl rfl)
  | makeLine => exact balanced_of_eq hb (fun _ => rfl) (Core.roots_of_lines _)
  | fetch hx hid =>
    obtain ⟨rfl, -⟩ := ht _ _ hx
    exact balanced_pin hb (r := ⟨_, _⟩) hx hid
  | clone hr =>
    obtain ⟨x, hx, hlive⟩ := hb.live (Core.mem_roots_of_owned hr)
    exact balanced_pin hb hx hlive
  | drop => exact balanced_unpin hb
  | finish | write => exact balanced_update hb fun _ => ⟨rfl, rfl⟩
  | store hx size fields f => exact balanced_store ht hx size fields f hb
  | refer hx hn =>
    refine balanced_of_spaces hb (fun y hy => ?_) (by simp [Asset.roots])
    rw [hx] at hy
    cases hy
    exact ⟨Heap.key_newReference hn, Heap.space_newReference hn⟩
  | adjust | settle => exact balanced_of_spaces hb (fun x _ => ⟨rfl, rfl⟩) rfl
  | claim | retain | release | discharge =>
    exact balanced_of_spaces hb (fun x _ => ⟨rfl, rfl⟩) (by simp [Asset.roots])
  | enqueue q h =>
    have hretain : (c.modifyHeap h.heap (·.retain h.position)).Balanced p' :=
      balanced_of_spaces hb (fun x _ => ⟨rfl, rfl⟩) (by simp [Asset.roots])
    exact balanced_of_eq hretain (fun _ => rfl) (Core.roots_of_lines _)
  | dequeue =>
    refine balanced_of_eq (balanced_of_roots hb ?_) (fun _ => rfl) (Core.roots_of_lines _)
    simp [Asset.roots]
  | pause hx settings reason => exact balanced_pause ht hx settings reason hb
  | bind f | unbind f => exact balanced_of_roots hb (by simp [Asset.roots])
  | run j =>
    refine balanced_of_roots hb ?_
    rw [Asset.gather_add, Asset.gather_roots_root, Asset.gather_cons, Asset.gather_cons,
      Asset.roots_job]
    exact add_left_comm _ _ _ |>.trans (add_assoc _ _ _).symm
  | discard j =>
    refine balanced_of_roots hb ?_
    rw [Asset.gather_cons, Asset.gather_cons, Asset.gather_cons, Asset.roots_job]
    exact (add_assoc _ _ _).symm

end Balance

section Links

/-- **Every object in a field is there.** -/
theorem linked (h : Act L c p deeds c' p') (ht : c.Tidy) (hb : c.Balanced p) (hl : c.Linked) :
    c'.Linked := by
  cases h with
  | transfer heaps => exact hl.of_heaps heaps
  | makeHeap capacity =>
    refine Core.forall_heaps_addHeap hl ?_
    rintro a b ⟨r, hr, -⟩
    simp [Heap.empty, Space.empty, Space.get?] at hr
  | makeLine | dequeue | bind | unbind | run | discard => exact hl
  | fetch | clone | drop | finish => exact hl.modifyHeap fun x _ hx => hx.update fun _ => rfl
  | write hx hw hv =>
    refine hl.modifyHeap fun y hy hlinked => ?_
    rw [hx] at hy
    cases hy
    refine Heap.linked_writeField hlinked fun id hid => ?_
    -- what is stored belongs to somebody, and to this heap
    obtain ⟨v, rfl, rfl⟩ := Option.map_eq_some_iff.mp hid
    obtain ⟨y, hy, hlive⟩ := hb.live (Core.mem_roots_of_owned (hv v rfl))
    have hkey : v.heap = _ := (Heap.owns_of_checkField hw).2 v rfl
    rw [hkey, (ht _ _ hx).1, hx] at hy
    cases hy
    exact hlive
  | store => exact hl.modifyHeap fun x hx hlinked => Heap.linked_store (ht _ x hx).2 hlinked
  | refer hx hn =>
    refine hl.modifyHeap fun y hy hlinked => ?_
    rw [hx] at hy
    cases hy
    rwa [Heap.space_newReference hn]
  | adjust | settle | claim | retain | release | discharge => exact hl.modifyHeap fun x _ hx => hx
  | enqueue q h =>
    have hretain : (c.modifyHeap h.heap (·.retain h.position)).Linked :=
      hl.modifyHeap fun x _ hx => hx
    exact hretain.of_heaps rfl
  | pause _ settings reason =>
    exact hl.modifyHeap fun x hx hlinked => Heap.linked_pause (ht _ x hx).2 hlinked settings reason

end Links

end Act

end ManagedHeap
