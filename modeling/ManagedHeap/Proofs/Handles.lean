import ManagedHeap.Proofs.Ledger

/-!
# References keep to objects that are there

**Input.**  A core and the hand of the thread that acts, or a run.

**Algorithm.**  The handles of a reference are counted like roots: names, queues, tasks and lists of
pending references have them.  Nobody makes a handle of an active reference from nothing, so a
reference that is forgotten stays forgotten.  Every reference that is held, active and not cleared
is looked at by the next collection, which clears it if its object goes away.

**Results.**  The count on a reference is exact (`Act.counted`), only enqueued references are
claimed (`Act.routed`), and the object of a tracked reference is there (`Act.tracking`).  With roots
and fields: `World.resolves_after`.
-/

namespace ManagedHeap

variable {e : Nat} {r : Reference} {g : Reference → Reference} {k : Handle}

open Asset Deed

def Asset.handles : Asset → List Handle
  | .handle h | .pending h => [h]
  | _ => []

/-- Whether references that the next collection has to look at are registered, and their objects are
there. -/
def Heap.Tracks (x : Heap Finalizer) : Prop :=
  ∀ (i : Nat) (r : Reference) (id : ObjectId), x.references[i]? = some r → r.isTracked = true →
    r.referent = some id → i ∈ x.registered ∧ x.space.contains id = true

theorem Reference.isTracked_iff :
    r.isTracked = true ↔ 0 < r.handles ∧ r.stage = .active ∧ r.referent.isSome = true := by
  simp [Reference.isTracked, and_assoc]

theorem Reference.isTracked_of_release
    (h : ({ r with handles := r.handles - 1 } : Reference).isTracked = true) :
    r.isTracked = true := by
  obtain ⟨hpos, hrest⟩ := Reference.isTracked_iff.mp h
  dsimp only at hpos
  exact Reference.isTracked_iff.mpr ⟨by omega, hrest⟩

theorem Heap.handles_afterPending (r : Reference) (n : Nat) :
    (Heap.afterPending r n).handles = r.handles + n := by
  unfold Heap.afterPending
  split
  · next hn => rw [hn, Nat.add_zero]
  · rfl

theorem Heap.eq_zero_of_isTracked_afterPending (h : (Heap.afterPending r n).isTracked = true) :
    n = 0 := by
  by_contra hn
  unfold Heap.afterPending Reference.makePending Reference.isTracked at h
  rw [if_neg hn] at h
  split at h <;> simp_all

namespace Heap.Tracks

variable {x x' : Heap Finalizer}

theorem of_space (ht : x.Tracks) (hr : x'.references = x.references)
    (hg : x'.registered = x.registered)
    (hc : ∀ id, x.space.contains id = true → x'.space.contains id = true) : x'.Tracks := by
  intro i r id hi htracked hid
  rw [hr] at hi
  obtain ⟨hreg, hlive⟩ := ht i r id hi htracked hid
  exact ⟨by rwa [hg], hc id hlive⟩

theorem update (ht : x.Tracks) {id : ObjectId} {f : Record Finalizer → Record Finalizer} {n : Nat} :
    Heap.Tracks { x with space := x.space.update id f, faults := n } :=
  ht.of_space rfl rfl fun id' hid => by rwa [Space.contains_update]

theorem updateReference (ht : x.Tracks) (hg : ∀ r, x.references[j]? = some r →
      (g r).isTracked = true → r.isTracked = true ∧ (g r).referent = r.referent) :
    (x.updateReference j g).Tracks := by
  intro i r id hi htracked hid
  unfold Heap.updateReference at hi
  rw [Array.getElem?_modify] at hi
  split at hi
  · next hij =>
      subst hij
      obtain ⟨r₀, hr₀, rfl⟩ := Option.map_eq_some_iff.mp hi
      obtain ⟨htracked₀, hreferent⟩ := hg r₀ hr₀ htracked
      exact ht j r₀ id hr₀ htracked₀ (by rw [← hreferent, hid])
  · exact ht i r id hi htracked hid

theorem newReference (ht : x.Tracks) {id i : Nat} {kind : ReferenceKind} {r : Root}
    {queue : Option Nat} (hn : x.newReference id kind r queue = .ok (i, x'))
    (hlive : x.space.contains r.object = true) : x'.Tracks := by
  unfold Heap.newReference at hn
  split at hn <;> cases hn
  intro j r' id' hj htracked hid
  dsimp only at hj ⊢
  rw [Array.getElem?_push] at hj
  split at hj
  · next hsize =>
      cases hj
      cases hid
      exact ⟨by simp [hsize], hlive⟩
  · obtain ⟨hreg, hlive'⟩ := ht j r' id' hj htracked hid
    exact ⟨List.mem_append_left _ hreg, hlive'⟩

/-- A collection looks at every tracked reference, and clears it if its object goes away. -/
theorem pause (hx : x.Tidy) (ht : x.Tracks) (settings : Settings) (reason : Reason) :
    (x.pause settings reason).heap.Tracks := by
  intro i r' id hi htracked hid
  rw [Heap.references_pause, Heap.getElem?_makePending] at hi
  obtain ⟨r, hr, rfl⟩ := Option.map_eq_some_iff.mp hi
  have hcount := Heap.eq_zero_of_isTracked_afterPending htracked
  rw [hcount, Heap.afterPending, if_pos rfl] at htracked hid
  obtain ⟨hreg, hlive⟩ := ht i r id hr htracked hid
  have hmem : (i, r) ∈ x.tracked := Heap.mem_tracked.mpr ⟨hreg, hr, htracked⟩
  refine ⟨List.mem_map.mpr ⟨(i, r), hmem, rfl⟩, (Heap.contains_pause hx settings reason id).mpr ?_⟩
  exact Heap.survives_of_not_mem_pending settings reason hx.unmarked hx.mirrored hmem hid hlive
    (List.count_eq_zero.mp hcount)

end Heap.Tracks

namespace Core

/-- The number of handles that is kept on a reference; zero if there is no such reference. -/
def handles (c : Core) (k : Handle) : Nat := ((c.reference? k).map (·.handles)).getD 0

def Counted (c : Core) (p : Multiset Asset) : Prop :=
  ∀ k, c.handles k = (gather Asset.handles (c.assets + p)).count k

/-- Whether what is claimed was enqueued and goes to its own queue. -/
def Routed (c : Core) (p : Multiset Asset) : Prop :=
  ∀ q k, Asset.claim q k ∈ c.assets + p → ∃ r, c.reference? k = some r ∧ r.queue = some q ∧
    2 ≤ r.stage.rank

def Tracking (c : Core) : Prop := ∀ (e : Nat) (x : Heap Finalizer), c.heaps[e]? = some x → x.Tracks

variable {c c' : Core} {p p' : Multiset Asset}

section Counting

theorem handles_of_references (h : ∀ k, c'.reference? k = c.reference? k) (k : Handle) :
    c'.handles k = c.handles k := by
  unfold handles
  rw [h]

theorem handles_updateReference (h k : Handle) (g : Reference → Reference) :
    (c.modifyHeap h.heap (·.updateReference h.position g)).handles k =
      if k = h then ((c.reference? h).map fun r => (g r).handles).getD 0 else c.handles k := by
  unfold handles
  rw [reference?_updateReference]
  split
  · rw [Option.map_map]
    rfl
  · rfl

theorem Counted.exists_reference (hc : c.Counted p) (hk : k ∈ gather Asset.handles (c.assets + p)) :
    ∃ r, c.reference? k = some r ∧ 0 < r.handles := by
  have hpos : 0 < c.handles k := by
    rw [hc k]
    exact Multiset.count_pos.mpr hk
  unfold handles at hpos
  cases hr : c.reference? k with
  | none => simp [hr] at hpos
  | some r => exact ⟨r, rfl, by simpa [hr] using hpos⟩

theorem mem_handles_of_handled (h : c.Handled p k) : k ∈ gather Asset.handles (c.assets + p) :=
  mem_gather.mpr ⟨_, h, by simp [Asset.handles]⟩

end Counting

end Core

namespace Act

variable {c c' : Core} {p p' : Multiset Asset} {deeds : List Deed}

section Claims

/-- **What is claimed was enqueued and goes to its own queue.** -/
theorem routed (h : Act L c p deeds c' p') (hr : c.Routed p) : c'.Routed p' := by
  obtain ⟨lost, gained, howners, ht⟩ := h.exists_turnover
  intro q k hmem
  have hsplit : Asset.claim q k ∈ c.assets + p + gained := by
    rw [← howners]
    exact Multiset.mem_add.mpr (.inl hmem)
  rcases Multiset.mem_add.mp hsplit with hbefore | hgained
  · obtain ⟨r, hr, hq, hs⟩ := hr q k hbefore
    obtain ⟨r', hr', hp⟩ := h.progress.1.references k r hr
    exact ⟨r', hr', hp.queue.trans hq, hs.trans hp.stage⟩
  · obtain ⟨r, hr, hq, hs⟩ := ht.routed q k hgained
    exact ⟨r, hr, hq, by simp [hs, ReferenceStage.rank]⟩

end Claims

section Counts

variable {h : Handle} (hb : c.Counted p)

include hb

theorem counted_of_eq (hh : ∀ k, c'.handles k = c.handles k)
    (hg : gather Asset.handles (c'.assets + p') = gather Asset.handles (c.assets + p)) :
    c'.Counted p' :=
  fun k => by rw [hh, hg, hb k]

theorem counted_of_hand (hp : gather Asset.handles p' = gather Asset.handles p) : c.Counted p' :=
  counted_of_eq hb (fun _ => rfl) (by rw [gather_add, gather_add, hp])

theorem counted_of_references (hf : ∀ x, c.heaps[e]? = some x → (f x).references = x.references)
    (hg : gather Asset.handles p' = gather Asset.handles p) : (c.modifyHeap e f).Counted p' := by
  refine counted_of_eq hb (Core.handles_of_references fun k => ?_) ?_
  · rw [Core.reference?_modifyHeap]
    split
    · next he =>
        subst he
        unfold Core.reference?
        cases hx : c.heaps[k.heap]? with
        | none => simp
        | some x => simp [hf x hx]
    · rfl
  · rw [Core.assets_modifyHeap, gather_add, gather_add, hg]

theorem counted_of_handles (hg : ∀ r, (g r).handles = r.handles)
    (hp : gather Asset.handles p' = gather Asset.handles p) :
    (c.modifyHeap h.heap (·.updateReference h.position g)).Counted p' := by
  refine counted_of_eq hb (fun k => ?_) (by rw [Core.assets_modifyHeap, gather_add, gather_add, hp])
  rw [Core.handles_updateReference]
  split
  · next hk =>
      subst hk
      simp [hg, Core.handles]
  · rfl

theorem counted_retain (hr : c.reference? h = some r) :
    (c.modifyHeap h.heap (·.retain h.position)).Counted (.handle h ::ₘ p) := by
  intro k
  have hk := hb k
  rw [Core.assets_modifyHeap, Multiset.add_cons, gather_cons, Multiset.count_add, ← hk]
  show (c.modifyHeap h.heap (·.updateReference h.position _)).handles k = _
  rw [Core.handles_updateReference]
  by_cases he : k = h
  · subst he
    simp [hr, Core.handles, Asset.handles, add_comm]
  · simp [he, Asset.handles]

omit hb in
theorem counted_release (ha : a.handles = [h]) (hb : c.Counted (a ::ₘ p)) :
    (c.modifyHeap h.heap (·.release h.position)).Counted p := by
  intro k
  have hk := hb k
  rw [Multiset.add_cons, gather_cons, ha, Multiset.count_add] at hk
  rw [Core.assets_modifyHeap]
  show (c.modifyHeap h.heap (·.updateReference h.position _)).handles k = _
  rw [Core.handles_updateReference]
  by_cases he : k = h
  · subst he
    rw [if_pos rfl]
    unfold Core.handles at hk
    cases hr : c.reference? k with
    | none =>
      simp only [hr, Option.map_none, Option.getD_none, Multiset.coe_singleton,
        Multiset.count_singleton_self] at hk
      omega
    | some r =>
      simp only [hr, Option.map_some, Option.getD_some, Multiset.coe_singleton,
        Multiset.count_singleton_self] at hk ⊢
      omega
  · simpa [he, Multiset.count_singleton] using hk

theorem counted_refer {x x' : Heap Finalizer} {id i : Nat} {kind : ReferenceKind} {r : Root}
    {queue : Option Nat} (hx : c.heaps[e]? = some x)
    (hn : x.newReference id kind r queue = .ok (i, x')) :
    (c.modifyHeap e fun _ => x').Counted (.handle ⟨e, i⟩ ::ₘ p) := by
  intro k
  have hk := hb k
  rw [Core.assets_modifyHeap, Multiset.add_cons, gather_cons, Multiset.count_add, ← hk]
  unfold Core.handles
  rw [Core.reference?_refer hx hn]
  by_cases he : k = ⟨e, i⟩
  · subst he
    simp [Core.reference?_fresh hx hn, Asset.handles]
  · simp [he, Asset.handles]

/-- The list of pending references holds on to those that a collection made pending. -/
theorem counted_pause (hx : c.heaps[e]? = some x) (settings : Settings)
    (reason : Reason) : (c.modifyHeap e fun y => (y.pause settings reason).heap).Counted
      (↑((x.pause settings reason).discarded.map fun d => Asset.closure d.2) +
        (↑((x.pause settings reason).pending.map fun i => Asset.pending ⟨e, i⟩) +
          (↑((x.pause settings reason).jobs.map Asset.job) + p))) := by
  intro k
  have hk := hb k
  have hpending :
      gather Asset.handles ↑((x.pause settings reason).pending.map fun i => Asset.pending ⟨e, i⟩) =
      ↑((x.pause settings reason).pending.map fun i => (⟨e, i⟩ : Handle)) := by
    rw [gather_coe, List.flatMap_map, List.map_eq_flatMap]
    rfl
  rw [Core.assets_modifyHeap]
  simp only [gather_add] at hk ⊢
  rw [hpending, gather_map_of_nil _ fun _ => rfl, gather_map_of_nil _ fun _ => rfl]
  simp only [zero_add, Multiset.count_add, Multiset.coe_count] at hk ⊢
  unfold Core.handles at hk ⊢
  rw [Core.reference?_modifyHeap]
  rcases k with ⟨e', j⟩
  by_cases he : e = e'
  · subst he
    have hcount : ((x.pause settings reason).pending.map fun i => (⟨e, i⟩ : Handle)).count ⟨e, j⟩ =
        (x.pause settings reason).pending.count j :=
      List.count_map_of_injective _ _ (fun a b hab => (Handle.mk.inj hab).2) j
    rw [if_pos rfl, hx, Option.bind_some, Heap.references_pause, Heap.getElem?_makePending, hcount]
    unfold Core.reference? at hk
    rw [hx, Option.bind_some] at hk
    cases hr : x.references[j]? with
    | none =>
      have hnot : j ∉ (x.pause settings reason).pending := by
        intro hj
        obtain ⟨r, htracked⟩ := Heap.exists_tracked_of_mem_pending settings reason hj
        rw [(Heap.mem_tracked.mp htracked).2.1] at hr
        cases hr
      rw [hr] at hk
      rw [List.count_eq_zero_of_not_mem hnot]
      simpa using hk
    | some r =>
      rw [hr] at hk
      simp only [Option.map_some, Option.getD_some, Heap.handles_afterPending] at hk ⊢
      omega
  · have hcount :
        ((x.pause settings reason).pending.map fun i => (⟨e, i⟩ : Handle)).count ⟨e', j⟩ = 0 := by
      refine List.count_eq_zero_of_not_mem fun hmem => ?_
      obtain ⟨i, -, hi⟩ := List.mem_map.mp hmem
      exact he (Handle.mk.inj hi).1
    rw [if_neg he, hcount]
    omega

omit hb

/-- **The handles of a reference are counted on it.** -/
theorem counted (h : Act L c p deeds c' p') (hreg : c.Regular) (hr : c.Routed p)
    (hb : c.Counted p) : c'.Counted p' := by
  cases h with
  | transfer heaps _ _ owners =>
    refine counted_of_eq hb (Core.handles_of_references fun k => ?_) (by rw [owners])
    unfold Core.reference?
    rw [heaps]
  | makeHeap =>
    refine counted_of_eq hb (Core.handles_of_references (Core.reference?_addHeap rfl)) ?_
    rw [Core.assets_addHeap rfl]
  | makeLine =>
    refine counted_of_eq hb (fun _ => rfl) ?_
    rw [Core.assets_addLine]
  | fetch | clone | drop =>
    exact counted_of_references hb (fun _ _ => rfl) (by simp [Asset.handles])
  | finish | write => exact counted_of_references hb (fun _ _ => rfl) rfl
  | store hx size fields f =>
    refine counted_of_references hb (fun _ _ => rfl) ?_
    rw [gather_add, gather_map_of_nil _ fun _ => rfl, zero_add]
    simp [Asset.handles]
  | refer hx hn => exact counted_refer hb hx hn
  | adjust h g hg => exact counted_of_handles hb (fun r => (hg r).handles) rfl
  | settle => exact counted_of_handles hb (fun _ => rfl) rfl
  | claim => exact counted_of_handles hb (fun _ => rfl) (by simp [Asset.handles])
  | retain hh =>
    obtain ⟨r, hr, -⟩ := hb.exists_reference (Core.mem_handles_of_handled hh)
    exact counted_retain hb hr
  | release | discharge => exact counted_release rfl hb
  | enqueue q k =>
    -- the reference and its queue are there
    obtain ⟨r, hr₀, hq, -⟩ := hr q k (Multiset.mem_add.mpr (.inr (Multiset.mem_cons_self _ _)))
    have hlt : q < c.lines.size := hreg.routed k r q hr₀ hq
    have hhand : c.Counted p' := counted_of_hand hb (by simp [Asset.handles])
    have hretain := counted_retain hhand hr₀
    have hline : (c.modifyHeap k.heap (·.retain k.position)).lines[q]? = some c.lines[q] :=
      Array.getElem?_eq_getElem hlt
    refine counted_of_eq hretain (fun _ => rfl) ?_
    rw [Core.assets_enqueue hline]
    simp only [gather_add, gather_cons, gather_singleton]
    exact add_assoc _ _ _
  | dequeue hq =>
    refine counted_of_eq hb (fun _ => rfl) ?_
    rw [← Core.assets_dequeue hq]
    simp only [gather_add, gather_cons, gather_singleton]
    exact (add_assoc _ _ _).symm
  | pause hx settings reason => exact counted_pause hb hx settings reason
  | bind f | unbind f | run j =>
    refine counted_of_hand hb ?_
    rw [gather_add, gather_map_of_nil _ fun _ => rfl]
    simp [Asset.handles]
  | discard j => exact counted_of_hand hb (by simp [Asset.handles])

end Counts

section Tracking

theorem tracking_modifyHeap (hk : c.Tracking)
    (hf : ∀ x, c.heaps[e]? = some x → x.Tracks → (f x).Tracks) : (c.modifyHeap e f).Tracking :=
  Core.forall_heaps_modifyHeap hk hf

theorem tracking_updateReference (hk : c.Tracking) (hg : ∀ r, c.reference? k = some r →
      (g r).isTracked = true → r.isTracked = true ∧ (g r).referent = r.referent) :
    (c.modifyHeap k.heap (·.updateReference k.position g)).Tracking :=
  tracking_modifyHeap hk fun x hx hx' => hx'.updateReference fun r hr =>
    hg r (Option.bind_eq_some_iff.mpr ⟨x, hx, hr⟩)

/-- **The object of a reference that is held, active and not cleared is there.** -/
theorem tracking (h : Act L c p deeds c' p') (ht : c.Tidy) (hb : c.Balanced p) (hc : c.Counted p)
    (hr : c.Routed p) (hk : c.Tracking) : c'.Tracking := by
  cases h with
  | transfer heaps =>
    unfold Core.Tracking
    rwa [heaps]
  | makeHeap capacity =>
    refine Core.forall_heaps_addHeap hk fun i r id hi => ?_
    simp [Heap.empty] at hi
  | makeLine | dequeue | bind | unbind | run | discard => exact hk
  | fetch | clone | drop | finish | write => exact tracking_modifyHeap hk fun x _ hx => hx.update
  | store =>
    exact tracking_modifyHeap hk fun x hx hx' => hx'.of_space rfl rfl fun id =>
      Heap.contains_store (ht _ x hx).2
  | @refer e kind r queue i x' _ id x hx hn hown =>
    refine tracking_modifyHeap hk fun y hy hy' => ?_
    rw [hx] at hy
    cases hy
    obtain ⟨z, hz, hlive⟩ := hb.live (Core.mem_roots_of_owned hown)
    rw [Heap.owns_of_newReference hn, (ht e x hx).1, hx] at hz
    cases hz
    exact hy'.newReference hn hlive
  | adjust k g hg =>
    refine tracking_updateReference hk fun r _ htracked => ?_
    have hsome := (Reference.isTracked_iff.mp htracked).2.2
    have hreferent : (g r).referent = r.referent :=
      (hg r).referent.resolve_right fun hnone => by simp [hnone] at hsome
    refine ⟨?_, hreferent⟩
    rw [Reference.isTracked_iff] at htracked ⊢
    rwa [(hg r).handles, (hg r).stage, hreferent] at htracked
  | settle | claim =>
    exact tracking_updateReference hk fun r _ h => by simp [Reference.isTracked] at h
  | @retain _ k hh =>
    refine tracking_updateReference hk fun r hr₀ htracked => ⟨?_, rfl⟩
    obtain ⟨r', hr', hpos⟩ := hc.exists_reference (Core.mem_handles_of_handled hh)
    rw [hr₀] at hr'
    cases hr'
    exact Reference.isTracked_iff.mpr ⟨hpos, (Reference.isTracked_iff.mp htracked).2⟩
  | release | discharge =>
    exact tracking_updateReference hk fun r _ htracked =>
      ⟨Reference.isTracked_of_release htracked, rfl⟩
  | enqueue q k =>
    -- what is claimed is not active
    obtain ⟨r, hr₀, -, hrank⟩ := hr q k (Multiset.mem_add.mpr (.inr (Multiset.mem_cons_self _ _)))
    refine tracking_updateReference hk fun r' hr' htracked => ?_
    rw [hr₀] at hr'
    cases hr'
    have hactive : r.stage = .active := (Reference.isTracked_iff.mp htracked).2.1
    simp [hactive, ReferenceStage.rank] at hrank
  | pause hx settings reason =>
    exact tracking_modifyHeap hk fun x hx hx' => hx'.pause (ht _ x hx).2 settings reason

end Tracking

end Act

namespace Heap

variable {h : Heap Finalizer} {r : Root}

section Fields

/-- Where every object in a field is there, reading a field gives what is stored. -/
theorem getField_of_linked (hl : h.space.Linked) (ho : r.heap = h.key) {record : Record Finalizer}
    (hr : h.space.get? r.object = some record) (index : Nat) :
    h.getField r index = match record.fields[index]? with
      | none => .error (.boundsCheckFailed index record.fields.size) | some none => .ok (none, h)
      | some (some child) => .ok (some ⟨h.key, child⟩, h.pin child) := by
  have hrecord : h.record r = .ok record := by simp [Heap.record, owns, ho, hr]
  unfold getField
  rw [hrecord]
  show (match record.fields[index]? with
    | none => _
    | some none => _
    | some (some child) => _) = _
  cases hf : record.fields[index]? with
  | none => rfl
  | some value =>
    cases value with
    | none => rfl
    | some child =>
      have hlive : h.space.contains child = true :=
        hl r.object child ⟨record, hr, Array.mem_of_getElem? hf⟩
      simp only [hlive, if_true]

theorem getField_of_foreign (ho : r.heap ≠ h.key) (index : Nat) :
    h.getField r index = .error (.invalidObject r.object) := by
  have hrecord : h.record r = .error (.invalidObject r.object) := by simp [Heap.record, owns, ho]
  unfold getField
  rw [hrecord]
  rfl

theorem setField_of_foreign (ho : r.heap ≠ h.key) (index : Nat) (value : Option Root) :
    h.setField r index value = .error (.invalidObject r.object) := by
  simp [setField, checkField, owns, ho, bind, Except.bind, throw, throwThe, MonadExceptOf.throw,
    Except.map]

theorem setField_of_foreign_value (ho : r.heap = h.key) (hv : v.heap ≠ h.key) (index : Nat) :
    h.setField r index (some v) = .error (.invalidObject v.object) := by
  simp [setField, checkField, owns, ho, hv, bind, Except.bind, throw, throwThe, MonadExceptOf.throw,
    Except.map]

end Fields

end Heap

/-- What holds of a core between acts. -/
structure Core.Coherent (c : Core) (p : Multiset Asset) : Prop where
  tidy : c.Tidy
  balanced : c.Balanced p
  linked : c.Linked
  routed : c.Routed p
  counted : c.Counted p
  tracking : c.Tracking

theorem Act.coherent {c c' : Core} {p p' : Multiset Asset} {deeds : List Deed}
    (h : Act L c p deeds c' p') (hreg : c.Regular) (hc : c.Coherent p) : c'.Coherent p' where
  tidy := h.tidy hc.tidy
  balanced := h.balanced hc.tidy hc.balanced
  linked := h.linked hc.tidy hc.balanced hc.linked
  routed := h.routed hc.routed
  counted := h.counted hreg hc.routed hc.counted
  tracking := h.tracking hc.tidy hc.balanced hc.counted hc.routed hc.tracking

theorem Core.coherent_empty : ({} : World).core.Coherent 0 where
  tidy := Core.tidy_empty
  balanced r := by
    rw [Core.roots, World.assets_empty, World.attached_empty]
    simp [Core.pins, Core.heaps, World.core, heldRoots]
  linked e x hx := by simp [Core.heaps, World.core] at hx
  routed q k hmem := by simp [World.assets_empty] at hmem
  counted k := by
    rw [World.assets_empty]
    simp [Core.handles, Core.reference?, Core.heaps, World.core]
  tracking e x hx := by simp [Core.heaps, World.core] at hx

namespace World

/-- The roots that anybody has: names, tasks, values on their way, jobs, and finalizers of
objects. -/
def roots (w : World) : Multiset Root := w.core.roots 0

/-- The handles that anybody has: names, queues, tasks, values on their way, and lists of pending
references. -/
def handles (w : World) : Multiset Handle := gather Asset.handles w.core.assets

/-- Whether every name of an object that is still in use finds it. -/
structure Resolves (w : World) : Prop where
  /-- The object of a root is in the heap that the root is of, and its record counts its roots. -/
  roots : ∀ r ∈ w.roots, ∃ x record, w.engines[r.heap]? = some x ∧
    x.heap.space.get? r.object = some record ∧ record.roots = w.roots.count r
  fields : ∀ (e : Nat) (x : Runtime), w.engines[e]? = some x →
    ∀ id record child, x.heap.space.get? id = some record → some child ∈ record.fields →
    x.heap.space.contains child = true
  /-- A reference that is active, not cleared and held has its object. -/
  references : ∀ (e : Nat) (x : Runtime), w.engines[e]? = some x →
    ∀ (i : Nat) (r : Reference) (id : ObjectId), x.heap.references[i]? = some r →
    r.stage = .active → r.referent = some id → 0 < r.handles → x.heap.space.contains id = true
  handles : ∀ (e : Nat) (x : Runtime), w.engines[e]? = some x → ∀ (i : Nat) (r : Reference),
    x.heap.references[i]? = some r → r.handles = w.handles.count ⟨e, i⟩
  /-- Reading a field of an object through its own heap gives what is stored there. -/
  reads : ∀ (r : Root) (x : Runtime) (record : Record Finalizer), w.engines[r.heap]? = some x →
    x.heap.space.get? r.object = some record → ∀ index, x.heap.getField r index =
      match record.fields[index]? with
      | none => .error (.boundsCheckFailed index record.fields.size)
      | some none => .ok (none, x.heap)
      | some (some child) => .ok (some ⟨r.heap, child⟩, x.heap.pin child)
  /-- A root of another heap is refused. -/
  refuses : ∀ (e : Nat) (x : Runtime), w.engines[e]? = some x → ∀ (r : Root) (index : Nat),
    r.heap ≠ e → x.heap.getField r index = .error (.invalidObject r.object) ∧
    ∀ value, x.heap.setField r index value = .error (.invalidObject r.object)
  /-- A root of another heap is not stored. -/
  refusesValue : ∀ (e : Nat) (x : Runtime), w.engines[e]? = some x → ∀ (r v : Root) (index : Nat),
    r.heap = e → v.heap ≠ e → x.heap.setField r index (some v) = .error (.invalidObject v.object)

section Resolution

variable (s : EngineSpec) (label : String) (moves : List Move)

theorem coherent_after : ((start s label).after moves).core.Coherent 0 :=
  invariant_after (fun hreg h hc => h.coherent hreg hc) Core.coherent_empty s
    label moves

theorem exists_engine_of_heap {w : World} {y : Heap Finalizer} (hy : w.core.heaps[e]? = some y) :
    ∃ x, w.engines[e]? = some x ∧ x.heap = y := by
  simpa [Core.heaps, core, Engine.cell] using hy

/-- **No name of an object in use dangles.**  After any moves, roots, fields and references that are
active, not cleared and held find their objects, a field read of an object in use gives what is
stored, and roots of another heap are refused. -/
theorem resolves_after : ((start s label).after moves).Resolves := by
  have hc := coherent_after s label moves
  generalize (start s label).after moves = w at hc
  have hkey : ∀ {e : Nat} {x : Runtime}, w.engines[e]? = some x → x.heap.key = e :=
    fun hx => (hc.tidy _ _ (heaps_core hx)).1
  have hlive : ∀ r ∈ w.roots, ∃ x record, w.engines[r.heap]? = some x ∧
      x.heap.space.get? r.object = some record := by
    intro r hr
    obtain ⟨y, hy, hcontains⟩ := hc.balanced.live hr
    obtain ⟨x, hx, rfl⟩ := exists_engine_of_heap hy
    obtain ⟨record, hrecord⟩ := Space.contains_iff.mp hcontains
    exact ⟨x, record, hx, hrecord⟩
  constructor
  case roots =>
    intro r hr
    obtain ⟨x, record, hx, hrecord⟩ := hlive r hr
    refine ⟨x, record, hx, hrecord, ?_⟩
    rw [← Space.pins_of_get? hrecord, ← Core.pins_of_heap (heaps_core hx)]
    exact hc.balanced r
  case fields =>
    intro e x hx id record child hrecord hchild
    exact hc.linked e x.heap (heaps_core hx) id child ⟨record, hrecord, hchild⟩
  case references =>
    intro e x hx i r id hr hs hid hpos
    have htracked : r.isTracked = true := Reference.isTracked_iff.mpr ⟨hpos, hs, by simp [hid]⟩
    exact (hc.tracking e x.heap (heaps_core hx) i r id hr htracked hid).2
  case handles =>
    intro e x hx i r hr
    have hreference : w.core.reference? ⟨e, i⟩ = some r :=
      Option.bind_eq_some_iff.mpr ⟨x.heap, heaps_core hx, hr⟩
    have hcount := hc.counted ⟨e, i⟩
    rw [Core.handles, hreference, add_zero] at hcount
    exact hcount
  case reads =>
    intro r x record hx hrecord index
    rw [Heap.getField_of_linked (hc.linked _ _ (heaps_core hx)) (hkey hx).symm hrecord, hkey hx]
  case refuses =>
    intro e x hx r index hne
    rw [← hkey hx] at hne
    exact ⟨Heap.getField_of_foreign hne index, Heap.setField_of_foreign hne index⟩
  case refusesValue =>
    intro e x hx r v index he hne
    rw [← hkey hx] at he hne
    exact Heap.setField_of_foreign_value he hne index

theorem mem_roots_of_named {w : World} {n : String} {r : Root} (h : (n, r) ∈ w.names.objects) :
    r ∈ w.roots := by
  refine Core.mem_roots_of_owned ⟨.root r, ?_, by simp [Asset.roots]⟩
  have hmem : Asset.root r ∈ w.names.objects.map fun x => Asset.root x.2 :=
    List.mem_map.mpr ⟨(n, r), h, rfl⟩
  simp only [Core.assets, core, Names.bindings, Bindings.assets, Multiset.mem_add, Multiset.mem_coe]
  exact .inl (.inl (.inl (.inl (.inl hmem))))

/-- A chain of two objects, and an object of a second runtime. -/
def twoHeapMoves : List Move :=
  chainMoves ++ [.instruct 0 1 false (.makeEngine "other" standardEngine)] ++
    List.replicate 2 (.step 0) ++
    [.instruct 0 2 false (.allocate "other" { size := 16 } (some "far"))] ++
    List.replicate 6 (.step 0)

/-- The last link of a chain is read through, and nothing of the other heap gets into it. -/
theorem resolves_two_heaps :
    (⟨0, ⟨1, 1⟩⟩ : Root) ∈ ((start standardEngine "gc").after twoHeapMoves).roots ∧
      (⟨1, ⟨0, 1⟩⟩ : Root) ∈ ((start standardEngine "gc").after twoHeapMoves).roots ∧
      ∃ x, ((start standardEngine "gc").after twoHeapMoves).engines[0]? = some x ∧
        x.heap.getField ⟨0, ⟨1, 1⟩⟩ 0 = .ok (some ⟨0, ⟨0, 1⟩⟩, x.heap.pin ⟨0, 1⟩) ∧
        x.heap.setField ⟨0, ⟨1, 1⟩⟩ 0 (some ⟨1, ⟨0, 1⟩⟩) = .error (.invalidObject ⟨0, 1⟩) := by
  have hnames : ((start standardEngine "gc").after twoHeapMoves).names.objects =
      [("far", ⟨1, ⟨0, 1⟩⟩), ("last", ⟨0, ⟨1, 1⟩⟩)] := by decide +kernel
  have hfields : ((((start standardEngine "gc").after twoHeapMoves).engines[0]?).bind fun x =>
      (x.heap.space.get? ⟨1, 1⟩).map (·.fields)) = some #[some ⟨0, 1⟩] := by decide +kernel
  have hresolves := resolves_after standardEngine "gc" twoHeapMoves
  have hlast : (⟨0, ⟨1, 1⟩⟩ : Root) ∈ ((start standardEngine "gc").after twoHeapMoves).roots :=
    mem_roots_of_named (n := "last") (by simp [hnames])
  have hfar : (⟨1, ⟨0, 1⟩⟩ : Root) ∈ ((start standardEngine "gc").after twoHeapMoves).roots :=
    mem_roots_of_named (n := "far") (by simp [hnames])
  obtain ⟨x, record, hx, hrecord, -⟩ := hresolves.roots _ hlast
  refine ⟨hlast, hfar, x, hx, ?_, ?_⟩
  · rw [hx] at hfields
    have hstored : record.fields = #[some ⟨0, 1⟩] := by simpa [hrecord] using hfields
    rw [hresolves.reads _ x record hx hrecord 0, hstored]
    rfl
  · exact hresolves.refusesValue 0 x hx _ _ 0 rfl (by decide)

end Resolution

end World

end ManagedHeap
