import ManagedHeap.Proofs.Accounting
import ManagedHeap.Proofs.Marking
import ManagedHeap.Proofs.SoftClearing

/-!
# Pauses compared

**Input.**  A heap of a run, and two pauses: with two reasons, or one after the other.

**Algorithm.**  An emergency retains no soft reference, so it holds less.  What it finds to be
finalized is then more, and all that this reaches stays; but all of that was held without the
emergency, or was to be finalized as well.

Where soft references do not age, a pause that finds nothing to be finalized leaves exactly what is
held.  The next one finds the same roots and as many bytes behind them, hence the same policy; the
retained references are the same, too, so everything that is left is held.

**Results.**
* `World.outdoes_emergency_after`: an emergency reclaims at least as much as a pause for any other
reason.
* `World.rests_after`: the second of two such pauses changes nothing.
-/

namespace ManagedHeap

section Bytes

namespace Space

variable {φ : Type} {s s' : Space φ} {id : ObjectId} {r : Record φ}

theorem footprints_eq_map_ids (s : Space φ) : s.footprints = ↑(s.ids.map s.footprintOf) := by
  have hids : s.ids.map s.footprintOf = s.slots.toList.zipIdx.filterMap fun p =>
      p.1.footprint? := by
    unfold ids
    rw [List.map_filterMap]
    refine List.filterMap_congr ?_
    rintro ⟨slot, i⟩ hp
    have hslot : s.slots[i]? = some slot := by simpa using List.mem_zipIdx_iff_getElem?.mp hp
    cases hr : slot.record with
    | none => simp [Slot.footprint?, hr]
    | some r => simp [Slot.footprint?, footprintOf, get?, hslot, hr]
  have hslots : s.slots.toList.zipIdx.filterMap (fun p => p.1.footprint?) =
      s.slots.toList.filterMap Slot.footprint? := by
    conv_rhs => rw [← List.zipIdx_map_fst 0 s.slots.toList, List.filterMap_map]
    rfl
  rw [hids, hslots]
  unfold footprints total
  induction s.slots.toList with
  | nil => rfl
  | cons slot rest ih =>
    rw [List.map_cons, List.sum_cons, ih, List.filterMap_cons]
    cases slot.footprint? <;> rfl

/-- A space has no more objects and bytes than another one whose records include its own. -/
theorem Accounts.le (ha : s.Accounts) (ha' : s'.Accounts) (h : ∀ id, s'.contains id = true →
      s.contains id = true ∧ s'.footprintOf id = s.footprintOf id) :
    s'.usedBytes ≤ s.usedBytes ∧ s'.liveObjects ≤ s.liveObjects := by
  have hlive : ∀ id ∈ s'.ids, s'.contains id = true :=
    fun id hid => contains_iff.mpr (mem_ids.mp hid)
  have hsub : s'.ids.Subperm s.ids := List.subperm_of_subset (nodup_ids s') fun id hid =>
      mem_ids.mpr (contains_iff.mp (h id (hlive id hid)).1)
  have hfootprints : s'.footprints ≤ s.footprints := by
    rw [footprints_eq_map_ids, footprints_eq_map_ids,
      List.map_congr_left fun id hid => (h id (hlive id hid)).2]
    exact Multiset.map_le_map (Multiset.coe_le.mpr hsub)
  obtain ⟨others, hothers⟩ := Multiset.le_iff_exists_add.mp hfootprints
  rw [ha.used, ha'.used, ha.live, ha'.live, hothers, Multiset.sum_add, Multiset.card_add]
  exact ⟨Nat.le_add_right .., Nat.le_add_right ..⟩

/-- A sweep of a space in which everything is marked takes the marks away and nothing else. -/
theorem sweep_of_marked (h : ∀ id, s.contains id = true → s.isMarked id = true) :
    s.garbage = [] ∧ s.sweep = s.plain := by
  have hrecord : ∀ (i : Nat) slot r, s.slots[i]? = some slot → slot.record = some r →
      r.header.marked = true := by
    intro i slot r hslot hr
    have hget : s.get? ⟨i, slot.generation⟩ = some r := get?_eq_some_iff.mpr ⟨slot, hslot, rfl, hr⟩
    have hm := h _ (contains_of_get? hget)
    simpa [isMarked, hget] using hm
  have hgarbage : ∀ slot ∈ s.slots.toList, slot.garbage? = none := by
    intro slot hslot
    obtain ⟨i, hi⟩ := List.getElem?_of_mem hslot
    refine Option.eq_none_iff_forall_ne_some.mpr fun r hr => ?_
    obtain ⟨r', hr', hm⟩ := garbage?_isSome_iff.mp ⟨r, hr⟩
    rw [hrecord i slot r' (by simpa using hi) hr'] at hm
    cases hm
  have hnone : s.garbage = [] := List.filterMap_eq_nil_iff.mpr hgarbage
  have hvacated : s.vacated = [] := by
    refine List.filterMap_eq_nil_iff.mpr ?_
    rintro ⟨slot, i⟩ hp
    exact congrArg (Option.map fun _ => i) (hgarbage slot (List.fst_mem_of_mem_zipIdx hp))
  have hslots : s.slots.map Slot.swept = s.plain.slots := by
    refine Array.ext_getElem? fun i => ?_
    rw [plain, Array.getElem?_map, Array.getElem?_map]
    cases hslot : s.slots[i]? with
    | none => rfl
    | some slot =>
      cases hr : slot.record with
      | none =>
        rw [Option.map_some, Option.map_some, swept_of_vacant hr, hr, Option.map_none, ← hr]
      | some r => simp [swept_of_marked hr (hrecord i slot r hslot hr), hr, Record.plain]
  refine ⟨hnone, ?_⟩
  unfold sweep
  rw [hslots, hvacated, garbageBytes, hnone]
  rfl

theorem Unmarked.plain_eq (hu : s.Unmarked) : s.plain = s := by
  refine eq_of_plain_eq ?_ fun id => ?_
  · simp [plain, Function.comp_def]
  · rw [hu.isMarked id, Space.isMarked, get?_plain]
    cases s.get? id <;> rfl

end Space

end Bytes

section Emergencies

namespace Heap

variable {h : Heap Finalizer} {settings : Settings} {reason : Reason} {n : Nat} {id : ObjectId}
  {r : Reference}

theorem gives_emergency (r : Reference) :
    (h.softPolicy settings (.emergency n)).gives r = true := by
  simp [softPolicy, SoftPolicy.ofSettings, SoftPolicy.gives, Reason.isEmergency]

theorem not_retained_emergency : ¬h.Retained settings (.emergency n) id := by
  rintro ⟨i, r, -, -, -, hkeeps⟩
  rw [gives_emergency] at hkeeps
  cases hkeeps

theorem Held.of_emergency (hh : h.Held settings (.emergency n) id) : h.Held settings reason id :=
  Space.Reach.mono (fun _ hx => hx.imp_right fun hr => absurd hr not_retained_emergency) hh

/-- **What survives an emergency survives any other pause**: what an emergency finds to be finalized
was held otherwise, or is to be finalized anyway. -/
theorem Survives.of_emergency (hs : h.Survives settings (.emergency n) id) :
    h.Survives settings reason id := by
  refine Space.Reach.subset hs (h.Survives settings reason) ?_ fun a b ha hl hb => .link ha hl hb
  rintro x (hroot | hretained | ⟨henabled, -, hrecord⟩) hx
  · exact .base (.inl hroot) hx
  · exact absurd hretained not_retained_emergency
  · by_cases hheld : h.Held settings reason x
    · exact hheld.survives
    · exact Scheduled.survives ⟨henabled, hheld, hrecord⟩

theorem Clears.emergency (hc : h.Clears settings reason r id) :
    h.Clears settings (.emergency n) r id := by
  unfold Clears at hc ⊢
  cases hkind : r.kind with
  | soft =>
    rw [hkind] at hc
    exact ⟨gives_emergency r, fun hh => hc.2 hh.of_emergency⟩
  | weak =>
    rw [hkind] at hc
    exact fun hh => hc hh.of_emergency
  | phantom =>
    rw [hkind] at hc
    exact fun hs => hc hs.of_emergency

/-- Whether a pause with the first reason reclaims all that one with the second does. -/
structure Outdoes (h : Heap Finalizer) (settings : Settings) (urgent reason : Reason) : Prop where
  /-- What it leaves the other one leaves, too. -/
  live : ∀ id, (h.pause settings urgent).heap.space.contains id = true →
    (h.pause settings reason).heap.space.contains id = true
  /-- The references of each kind that the other one makes pending it makes pending, too. -/
  cleared : ∀ kind, h.clearedOf settings reason kind ⊆ h.clearedOf settings urgent kind
  objects : (h.pause settings reason).reclaimedObjects ≤ (h.pause settings urgent).reclaimedObjects
  bytes : (h.pause settings reason).reclaimedBytes ≤ (h.pause settings urgent).reclaimedBytes

theorem footprintOf_pause (ht : h.Tidy)
    (hc : (h.pause settings reason).heap.space.contains id = true) :
    (h.pause settings reason).heap.space.footprintOf id = h.space.footprintOf id := by
  obtain ⟨r', hr'⟩ := Space.contains_iff.mp hc
  obtain ⟨-, r, hr, hsame⟩ := exists_of_get?_pause ht settings reason hr'
  rw [Space.footprintOf, Space.footprintOf, hr, hr']
  rcases hsame with ⟨-, rfl⟩ | ⟨-, rfl⟩ <;> rfl

theorem outdoes_emergency (ht : h.Tidy) (hk : h.Tracks) (ho : h.Orderly)
    (ha : h.space.Accounts) (settings : Settings) (n : Nat) (reason : Reason) :
    h.Outdoes settings (.emergency n) reason := by
  have hlive : ∀ id, (h.pause settings (.emergency n)).heap.space.contains id = true →
      (h.pause settings reason).heap.space.contains id = true := by
    intro id hlive
    rw [contains_pause ht] at hlive ⊢
    exact hlive.of_emergency
  obtain ⟨hurgent, hbytes, hobjects⟩ := accounts_pause ha ht.unmarked settings (.emergency n)
  obtain ⟨hother, hbytes', hobjects'⟩ := accounts_pause ha ht.unmarked settings reason
  obtain ⟨hused, hcount⟩ := hother.le hurgent fun id hid =>
    ⟨hlive id hid, (footprintOf_pause ht hid).trans (footprintOf_pause ht (hlive id hid)).symm⟩
  refine ⟨hlive, fun kind => ?_, by omega, by omega⟩
  · rintro i ⟨r, hr, htracked, hkind, hpended⟩
    refine ⟨r, hr, htracked, hkind, ?_⟩
    obtain ⟨id, hid⟩ := Option.isSome_iff_exists.mp (Reference.isTracked_iff.mp htracked).2.2
    rw [getElem?_pause_eq_pended_iff ho hr htracked,
      mem_pending_iff ht hk hr htracked hid] at hpended ⊢
    exact hpended.emergency

end Heap

namespace World

/-- **An emergency reclaims at least as much.**  From any heap of any run and with any settings, a
pause in an emergency leaves some of the objects that a pause for another reason leaves, and makes
all soft, weak and phantom references pending that the other one makes pending; so it reclaims no
fewer objects and bytes. -/
theorem outdoes_emergency_after (s : EngineSpec) (label : String) (moves : List Move) (e : Nat)
    (x : Runtime) (hx : ((start s label).after moves).engines[e]? = some x) (settings : Settings)
    (n : Nat) (reason : Reason) : x.heap.Outdoes settings (.emergency n) reason :=
  Heap.outdoes_emergency (tidy_heap hx).2
    ((coherent_after s label moves).tracking e x.heap (heaps_core hx))
    (orderly_after s label moves e x.heap (heaps_core hx))
    (accounts_after s label moves e x.heap (heaps_core hx)) settings n reason

/-- The weak reference to an object that is to be finalized is cleared by every pause, and the
object stays.  The soft reference is cleared in an emergency only, and its object goes. -/
theorem outdoes_emergency_watched :
    ∃ x, ((start startedEngine "gc").after watchedMoves).engines[0]? = some x ∧
    0 ∈ x.heap.clearedOf x.settings .explicit .weak ∧
    0 ∈ x.heap.clearedOf x.settings (.emergency 0) .weak ∧
    2 ∈ x.heap.clearedOf x.settings (.emergency 0) .soft ∧
    2 ∉ x.heap.clearedOf x.settings .explicit .soft ∧
    (x.heap.pause x.settings (.emergency 0)).heap.space.contains ⟨0, 1⟩ = true ∧
    (x.heap.pause x.settings .explicit).heap.space.contains ⟨0, 1⟩ = true ∧
    (x.heap.pause x.settings .explicit).heap.space.contains ⟨1, 1⟩ = true ∧
    (x.heap.pause x.settings (.emergency 0)).heap.space.contains ⟨1, 1⟩ = false := by
  have hvalues : (((start startedEngine "gc").after watchedMoves).engines[0]?).map (fun x =>
        (x.heap.references[0]?, x.heap.references[2]?, (x.heap.pause x.settings
        .explicit).heap.references[0]?, (x.heap.pause x.settings .explicit).heap.references[2]?,
        (x.heap.pause x.settings (.emergency 0)).heap.references[2]?)) =
      some (some ⟨1, .weak, some ⟨0, 1⟩, .active, none, 0, 1⟩, some ⟨3, .soft, some ⟨1, 1⟩, .active,
        none, 0, 1⟩, some ⟨1, .weak, none, .pending, none, 0, 2⟩, some ⟨3, .soft, some ⟨1, 1⟩,
        .active, none, 0, 1⟩, some ⟨3, .soft, none, .pending, none, 0, 2⟩) := by decide +kernel
  have hlive : (((start startedEngine "gc").after watchedMoves).engines[0]?).map (fun x =>
        ((x.heap.pause x.settings (.emergency 0)).heap.space.contains ⟨0, 1⟩,
        (x.heap.pause x.settings .explicit).heap.space.contains ⟨1, 1⟩, (x.heap.pause x.settings
        (.emergency 0)).heap.space.contains ⟨1, 1⟩)) = some (true, true, false) := by
    decide +kernel
  obtain ⟨x, hx, hvalues⟩ := Option.map_eq_some_iff.mp hvalues
  rw [hx] at hlive
  simp only [Option.map_some, Option.some.injEq, Prod.mk.injEq] at hvalues hlive
  obtain ⟨hweak, hsoft, hpended, hkept, hcleared⟩ := hvalues
  have houtdoes :=
    outdoes_emergency_after startedEngine "gc" watchedMoves 0 x hx x.settings 0 .explicit
  have hfirst : 0 ∈ x.heap.clearedOf x.settings .explicit .weak := ⟨_, hweak, rfl, rfl, hpended⟩
  refine ⟨x, hx, hfirst, houtdoes.cleared .weak hfirst, ⟨_, hsoft, rfl, rfl, hcleared⟩, ?_, hlive.1,
    houtdoes.live ⟨0, 1⟩ hlive.1, hlive.2.1, hlive.2.2⟩
  rintro ⟨r, hr, -, -, hr'⟩
  cases hsoft.symm.trans hr
  cases hkept.symm.trans hr'

end World

end Emergencies

section Repetition

namespace Heap

variable {h h₁ h₂ : Heap Finalizer} {settings : Settings} {reason : Reason} {id : ObjectId}
  {r : Reference}

/-- What may become of a heap right after a collection: references that are no longer active are
delivered. -/
structure Delivers (h₁ h₂ : Heap Finalizer) : Prop where
  space : h₂.space = h₁.space
  registered : h₂.registered = h₁.registered
  /-- An active reference stays as it is, and no other one becomes active. -/
  active : ∀ (i : Nat) (r : Reference), r.stage = .active →
    (h₂.references[i]? = some r ↔ h₁.references[i]? = some r)

theorem Delivers.mem_tracked_iff (hd : h₁.Delivers h₂) : (i, r) ∈ h₂.tracked ↔
    (i, r) ∈ h₁.tracked := by
  rw [mem_tracked, mem_tracked, hd.registered]
  refine and_congr_right fun _ => and_congr_left fun ht =>
    hd.active i r (Reference.isTracked_iff.mp ht).2.1

theorem Delivers.tracks (hd : h₁.Delivers h₂) (hk : h₁.Tracks) : h₂.Tracks := by
  intro i r id hr ht hid
  rw [hd.registered, hd.space]
  exact hk i r id ((hd.active i r (Reference.isTracked_iff.mp ht).2.1).mp hr) ht hid

theorem Delivers.tidy (hd : h₁.Delivers h₂) (ht : h₁.Tidy) : h₂.Tidy where
  sound := hd.space ▸ ht.sound
  unmarked := hd.space ▸ ht.unmarked
  mirrored := hd.space ▸ ht.mirrored

theorem gives_of_no_lru (hlru : settings.softRefLruCycles = 0) (r : Reference) :
    (h.softPolicy settings reason).gives r = (h.softPolicy settings reason).clearAll := by
  have hcycles : (h.softPolicy settings reason).lruCycles = 0 := hlru
  simp [SoftPolicy.gives, hcycles]

/-- A pause that finds nothing to be finalized keeps exactly what is held, as it is. -/
theorem survives_iff_held (hnone : ∀ id, ¬h.Finalizing settings reason id) :
    h.Survives settings reason id ↔ h.Held settings reason id := by
  refine ⟨fun hs => Space.Reach.mono (fun x hx => ?_) hs, Held.survives⟩
  rcases hx with hroot | hretained | hscheduled
  · exact .inl hroot
  · exact .inr hretained
  · exact absurd hscheduled.2 (hnone x)

open Classical in
theorem get?_pause_of_none (ht : h.Tidy) (hnone : ∀ id, ¬h.Finalizing settings reason id)
    (id : ObjectId) : (h.pause settings reason).heap.space.get? id =
      if h.Held settings reason id then h.space.get? id else none := by
  rw [get?_pause settings reason ht.unmarked ht.mirrored, if_neg fun hs => hnone id hs.2]
  simp only [survives_iff_held hnone]

section Again

variable (ht : h.Tidy) (hnone : ∀ id, ¬h.Finalizing settings reason id)
  (hd : (h.pause settings reason).heap.Delivers h₂)
include ht hnone hd

theorem get?_again (hh : h.Held settings reason id) : h₂.space.get? id = h.space.get? id := by
  rw [hd.space, get?_pause_of_none ht hnone, if_pos hh]

theorem held_of_contains_again (hc : h₂.space.contains id = true) : h.Held settings reason id := by
  rw [hd.space, contains_pause ht, survives_iff_held hnone] at hc
  exact hc

theorem rooted_again : Trace.Rooted h₂.space id ↔ Trace.Rooted h.space id := by
  constructor
  · rintro ⟨r, hr, hpos⟩
    have hheld := held_of_contains_again ht hnone hd (Space.contains_of_get? hr)
    exact ⟨r, (get?_again ht hnone hd hheld).symm.trans hr, hpos⟩
  · rintro ⟨r, hr, hpos⟩
    have hheld : h.Held settings reason id := .base (.inl ⟨r, hr, hpos⟩) (Space.contains_of_get? hr)
    exact ⟨r, (get?_again ht hnone hd hheld).trans hr, hpos⟩

theorem reach_again (hstart : ∀ x, start x → start' x)
    (hheld : ∀ x, h.space.Reach start x → h.Held settings reason x) (hr : h.space.Reach start id) :
    h₂.space.Reach start' id := by
  have hcontains : ∀ {x}, h.Held settings reason x → h₂.space.contains x = true := by
    intro x hx
    obtain ⟨r, hr⟩ := Space.contains_iff.mp (Space.Reach.contains hx)
    exact Space.contains_of_get? ((get?_again ht hnone hd hx).trans hr)
  induction hr with
  | base hs hc => exact .base (hstart _ hs) (hcontains (hheld _ (.base hs hc)))
  | link ha hl hb ih =>
    obtain ⟨r, hr, hmem⟩ := hl
    exact .link ih ⟨r, (get?_again ht hnone hd (hheld _ ha)).trans hr, hmem⟩
      (hcontains (hheld _ (.link ha ⟨r, hr, hmem⟩ hb)))

theorem bytes_again : (Trace.markRoots h₂.space).bytes = (Trace.markRoots h.space).bytes := by
  have hu := ht.unmarked
  have hu₂ : h₂.space.Unmarked := (hd.tidy (ht.pause settings reason)).unmarked
  have hstrong : ∀ {x}, h.space.Reach (Trace.Rooted h.space) x → h.Held settings reason x :=
    fun hx => Space.Reach.mono (fun _ => .inl) hx
  refine Trace.bytes_markRoots_congr hu hu₂ (fun x => ?_) fun x hx => ?_
  · constructor
    · intro hr
      induction hr with
      | base hs hc =>
        have hheld := held_of_contains_again ht hnone hd hc
        exact .base ((rooted_again ht hnone hd).mp hs) hheld.contains
      | link _ hl hb ih =>
        obtain ⟨r, hr, hmem⟩ := hl
        exact .link ih ⟨r, (get?_again ht hnone hd (hstrong ih)).symm.trans hr, hmem⟩
          (held_of_contains_again ht hnone hd hb).contains
    · exact reach_again ht hnone hd (fun _ => (rooted_again ht hnone hd).mpr) fun _ => hstrong
  · rw [Space.footprintOf, Space.footprintOf, get?_again ht hnone hd (hstrong hx)]

theorem clearAll_again :
    (h₂.softPolicy settings reason).clearAll = (h.softPolicy settings reason).clearAll := by
  have hcapacity : h₂.space.capacity = h.space.capacity :=
    calc h₂.space.capacity
      _ = (h.pause settings reason).heap.space.capacity := congrArg Space.capacity hd.space
      _ = (h.pinnedSpace settings reason).capacity := rfl
      _ = h.space.capacity :=
        congrArg Books.capacity (books_pinnedSpace ht.unmarked settings reason)
  unfold softPolicy SoftPolicy.ofSettings
  rw [hcapacity, bytes_again ht hnone hd]

/-- **Whatever is left is held again.** -/
theorem held_again (hk : h.Tracks) (hlru : settings.softRefLruCycles = 0)
    (hc : h₂.space.contains id = true) : h₂.Held settings reason id := by
  refine reach_again ht hnone hd (fun x hx => ?_) (fun _ hx =>
    hx) (held_of_contains_again ht hnone hd hc)
  rcases hx with hroot | ⟨i, r, hr, hsoft, hid, hkeeps⟩
  · exact .inl ((rooted_again ht hnone hd).mpr hroot)
  · refine .inr ⟨i, r, hd.mem_tracked_iff.mpr ?_, hsoft, hid, ?_⟩
    · -- a reference that the policy keeps is not made pending
      obtain ⟨hmem, href, htracked⟩ := mem_tracked.mp hr
      have hkept : i ∉ (h.pause settings reason).pending := by
        rw [mem_pending_iff ht hk href htracked hid, Clears, hsoft]
        exact fun hclears => by rw [hkeeps] at hclears; cases hclears.1
      refine mem_tracked.mpr ⟨List.mem_map.mpr ⟨(i, r), hr, rfl⟩, ?_, htracked⟩
      rw [getElem?_pause_of_not_mem hkept, href]
    · rw [gives_of_no_lru hlru] at hkeeps ⊢
      rw [clearAll_again ht hnone hd, hkeeps]

end Again

/-- Whether a pause changes nothing. -/
structure Rests (h : Heap Finalizer) (settings : Settings) (reason : Reason) : Prop where
  space : (h.pause settings reason).heap.space = h.space
  references : (h.pause settings reason).heap.references = h.references
  pending : (h.pause settings reason).pending = []
  jobs : (h.pause settings reason).jobs = []
  discarded : (h.pause settings reason).discarded = []
  reclaimedObjects : (h.pause settings reason).reclaimedObjects = 0
  reclaimedBytes : (h.pause settings reason).reclaimedBytes = 0

theorem rests_of_held (ht : h.Tidy) (hk : h.Tracks)
    (hheld : ∀ id, h.space.contains id = true → h.Held settings reason id) :
    h.Rests settings reason := by
  have hnone : ∀ id, ¬h.Finalizing settings reason id := by
    rintro id ⟨hnot, r, f, hr, -⟩
    exact hnot (hheld id (Space.contains_of_get? hr))
  have hpending : (h.pause settings reason).pending = [] := by
    refine List.eq_nil_iff_forall_not_mem.mpr fun i hi => ?_
    obtain ⟨r, hr⟩ := exists_tracked_of_mem_pending settings reason hi
    obtain ⟨-, href, htracked⟩ := mem_tracked.mp hr
    obtain ⟨id, hid⟩ := Option.isSome_iff_exists.mp (Reference.isTracked_iff.mp htracked).2.2
    have hclears := (mem_pending_iff ht hk href htracked hid).mp hi
    have hlive := hheld id (hk i r id href htracked hid).2
    unfold Clears at hclears
    cases hkind : r.kind with
    | soft => rw [hkind] at hclears; exact hclears.2 hlive
    | weak => rw [hkind] at hclears; exact hclears hlive
    | phantom => rw [hkind] at hclears; exact hclears hlive.survives
  have hrun : h.toRun settings reason = [] := by
    refine List.eq_nil_iff_forall_not_mem.mpr ?_
    rintro ⟨id, f⟩ hjob
    exact hnone id ((mem_toRun settings reason ht.unmarked ht.mirrored).mp hjob).1.2
  have htaken :
      (h.finalizerPhase settings reason) = ((h.softPhase settings reason).1.space, []) := by
    have hfinalizable : finalizable (h.softPhase settings reason).1.space = [] := by
      refine List.eq_nil_iff_forall_not_mem.mpr fun id hid => ?_
      exact hnone id ((mem_finalizable_softPhase settings reason ht.unmarked ht.mirrored id).mp hid)
    rw [finalizerPhase, hfinalizable]
    rfl
  have hpinned : h.pinnedSpace settings reason = (h.lastTrace settings reason).space := by
    rw [pinnedSpace, hrun]
    rfl
  have hplain : (h.pinnedSpace settings reason).plain = h.space := by
    rw [hpinned, (lastTrace_spec settings reason ht.unmarked).2.1, htaken]
    exact (plain_softPhase settings reason ht.unmarked).trans ht.unmarked.plain_eq
  have hmarked : ∀ id, (h.pinnedSpace settings reason).contains id = true →
      (h.pinnedSpace settings reason).isMarked id = true := by
    intro id hc
    rw [← Space.contains_plain, hplain] at hc
    rw [hpinned, isMarked_lastTrace_iff settings reason ht.unmarked ht.mirrored]
    exact (hheld id hc).survives
  obtain ⟨hgarbage, hsweep⟩ := Space.sweep_of_marked hmarked
  constructor
  case space => rw [space_pause, hsweep, hplain]
  case references => rw [references_pause, hpending]; rfl
  case pending => exact hpending
  case jobs => rw [jobs_pause settings reason ht.unmarked ht.mirrored, hrun]; rfl
  case discarded =>
    rw [discarded_pause settings reason ht.unmarked ht.mirrored, htaken]
    exact ite_self _
  case reclaimedObjects => exact congrArg List.length hgarbage
  case reclaimedBytes => exact congrArg (List.foldr (fun r n => r.header.size + n) 0) hgarbage

end Heap

namespace World

/-- **Collecting twice is collecting once.**  Where soft references do not age, and a pause of a
heap of any run finds no object to be finalized, the next pause for the same reason leaves every
record and every reference as it is.  It reclaims nothing, makes no reference pending and schedules
and drops no finalizer.  In between the references that the first pause made pending may have been
delivered, or not. -/
theorem rests_after (s : EngineSpec) (label : String) (moves : List Move) (e : Nat) (x : Runtime)
    (hx : ((start s label).after moves).engines[e]? = some x)
    (settings : Settings) (reason : Reason) (hlru : settings.softRefLruCycles = 0)
    (hnone : ∀ id, ¬x.heap.Finalizing settings reason id) (h : Heap Finalizer)
    (hd : (x.heap.pause settings reason).heap.Delivers h) : h.Rests settings reason := by
  have ht := (tidy_heap hx).2
  have hk := (coherent_after s label moves).tracking e x.heap (heaps_core hx)
  exact Heap.rests_of_held (hd.tidy (ht.pause settings reason))
    (hd.tracks (.pause ht hk settings reason)) fun id hc => Heap.held_again ht hnone hd hk hlru hc

/-- A thread makes an object with a weak reference that has a queue, and another one with a soft
reference; it drops its roots and collects, up to the pause. -/
def onceMoves : List Move :=
  .call "main" ::
    (ordered 0 (.allocate "gc" { size := 16 } (some "object")) 8 ++
      ordered 1 (.newReference "gc" "weak" "object" (some .weak) (some "queue")) 4 ++
      ordered 2 (.allocate "gc" { size := 16 } (some "cached")) 8 ++
      ordered 3 (.newReference "gc" "soft" "cached" (some .soft) none) 4 ++
      ordered 4 (.dropRoots ["object", "cached"]) 8 ++
      ordered 5 (.collect "gc" none) 9)

/-- The thread pauses, ends its collection and begins another one, up to the pause. -/
def twiceMoves : List Move :=
  onceMoves ++ (List.replicate 18 (.step 1) ++ ordered 6 (.collect "gc" none) 9)

deriving instance DecidableEq for Record, Slot, Space

/-- The first pause takes the object and makes the weak reference pending, which is enqueued then;
the second one finds nothing to do. -/
theorem rests_twice :
    ∃ x x' r, .paused 0 ∈ ((start startedEngine "gc").after onceMoves).deeds (.step 1) ∧
    ((start startedEngine "gc").after onceMoves).engines[0]? = some x ∧
    (x.heap.pause x.settings .explicit).reclaimedObjects = 1 ∧
    (x.heap.pause x.settings .explicit).heap.references[0]? = some r ∧ r.stage = .pending ∧
    .paused 0 ∈ ((start startedEngine "gc").after twiceMoves).deeds (.step 1) ∧
    ((start startedEngine "gc").after twiceMoves).engines[0]? = some x' ∧ x'.heap.references[0]? =
      some { r with stage := .enqueued } ∧ x'.heap.Rests x.settings .explicit := by
  let weak : Reference := ⟨1, .weak, none, .pending, some 0, 0, 2⟩
  let soft : Reference := ⟨2, .soft, some ⟨1, 1⟩, .active, none, 0, 1⟩
  have hpaused : .paused 0 ∈ ((start startedEngine "gc").after onceMoves).deeds (.step 1) ∧
      .paused 0 ∈ ((start startedEngine "gc").after twiceMoves).deeds (.step 1) := by decide +kernel
  have hfirst : (((start startedEngine "gc").after onceMoves).engines[0]?).map (fun x =>
      (x.settings.softRefLruCycles, (x.heap.pause x.settings .explicit).reclaimedObjects,
        x.heap.space.ids.all fun id => ((x.heap.space.get? id).bind (·.finalizer)).isNone)) =
      some (0, 1, true) := by decide +kernel
  have hpause : (((start startedEngine "gc").after onceMoves).engines[0]?).map (fun x =>
        ((x.heap.pause x.settings .explicit).heap.space,
        (x.heap.pause x.settings .explicit).heap.registered)) =
      (((start startedEngine "gc").after twiceMoves).engines[0]?).map (fun x =>
        (x.heap.space, x.heap.registered)) := by
    decide +kernel
  have hreferences : ((((start startedEngine "gc").after onceMoves).engines[0]?).map (fun x =>
      (x.heap.pause x.settings .explicit).heap.references)) = some #[weak, soft] ∧
      ((((start startedEngine "gc").after twiceMoves).engines[0]?).map (·.heap.references)) =
        some #[{ weak with stage := .enqueued }, soft] := by decide +kernel
  obtain ⟨x, hx, hfirst⟩ := Option.map_eq_some_iff.mp hfirst
  obtain ⟨x', hx', hreferences'⟩ := Option.map_eq_some_iff.mp hreferences.2
  have hbefore := hreferences.1
  rw [hx] at hpause hbefore
  rw [hx'] at hpause
  simp only [Option.map_some, Option.some.injEq, Prod.mk.injEq] at hfirst hpause hbefore
  obtain ⟨hlru, hreclaimed, hplain⟩ := hfirst
  have hnone : ∀ id, ¬x.heap.Finalizing x.settings .explicit id := by
    rintro id ⟨-, r, f, hr, hf⟩
    have hid := List.all_eq_true.mp hplain id (Space.mem_ids.mpr ⟨r, hr⟩)
    simp [hr, hf] at hid
  have hd : (x.heap.pause x.settings .explicit).heap.Delivers x'.heap := by
    refine ⟨hpause.1.symm, hpause.2.symm, fun i r hactive => ?_⟩
    rw [hbefore, hreferences']
    rcases i with _ | _ | i
    · constructor
      · intro hr
        cases hr
        cases hactive
      · intro hr
        cases hr
        cases hactive
    · rfl
    · rfl
  exact ⟨x, x', weak, hpaused.1, hx,
    hreclaimed, by rw [hbefore]; rfl, rfl, hpaused.2, hx', by rw [hreferences']; rfl,
    rests_after startedEngine "gc" onceMoves 0 x hx x.settings .explicit hlru hnone x'.heap hd⟩

end World

end Repetition

end ManagedHeap
