import ManagedHeap.Proofs.Pause

/-!
# What a pause leaves

**Input.**  A heap without marks in which the flag for a finalizer says whether there is one.

**Results.**
* `Heap.isMarked_lastTrace_iff`: the sweep finds exactly the surviving objects marked.
* `Heap.get?_pause`: what every name finds after a pause.
* `Heap.mem_jobs_pause`, `Heap.mem_discarded_pause`: the finalizers that are taken, to be run or to
be dropped.
* `Heap.getElem?_references_pause`: every reference after a pause; one that was tracked and was not
  made pending keeps its object (`Heap.survives_of_not_mem_pending`).
-/

namespace ManagedHeap

namespace Record

variable {φ : Type} {r : Record φ}

theorem plain_eq_self (h : r.header.marked = false) : r.plain = r := by
  rcases r with ⟨⟨size, marked, finalizable, pending⟩, fields, finalizer, roots⟩
  simp only at h
  subst h
  rfl

theorem plain_taken (enabled : Bool) (r : Record φ) :
    (r.taken enabled).plain = r.plain.taken enabled := by
  unfold taken plain
  cases r.finalizer with
  | none => rfl
  | some f => cases enabled <;> rfl

theorem plain_add_roots (r : Record φ) (n : Nat) :
    ({ r with roots := r.roots + n } : Record φ).plain =
      { r.plain with roots := r.plain.roots + n } := rfl

theorem scheduled_eq {f : φ} (hf : r.finalizer = some f) :
    ({ r.taken true with roots := (r.taken true).roots + 1 } : Record φ) = r.scheduled := by
  simp [taken, scheduled, hf]

end Record

namespace Heap

variable {φ : Type} {h : Heap φ} (settings : Settings) (reason : Reason) {id : ObjectId} {f : φ}

section LastTrace

theorem get?_finalizerPhase (id : ObjectId) : (h.finalizerPhase settings reason).1.get? id =
      if id ∈ finalizable (h.softPhase settings reason).1.space then
        ((h.softPhase settings reason).1.space.get? id).map (Record.taken settings.finalizerEnabled)
      else (h.softPhase settings reason).1.space.get? id :=
  get?_takeFinalizers _ _ (nodup_finalizable _) _ _

theorem contains_finalizerPhase (id : ObjectId) : (h.finalizerPhase settings reason).1.contains id =
      (h.softPhase settings reason).1.space.contains id := by
  unfold Space.contains
  rw [get?_finalizerPhase]
  split <;> simp

theorem isMarked_finalizerPhase (id : ObjectId) : (h.finalizerPhase settings reason).1.isMarked id =
      (h.softPhase settings reason).1.space.isMarked id := by
  unfold Space.isMarked
  rw [get?_finalizerPhase]
  by_cases hmem : id ∈ finalizable (h.softPhase settings reason).1.space
  · rw [if_pos hmem]
    cases (h.softPhase settings reason).1.space.get? id <;> simp
  · rw [if_neg hmem]

theorem links_finalizerPhase : (h.finalizerPhase settings reason).1.Links a b ↔
    (h.softPhase settings reason).1.space.Links a b := by
  unfold Space.Links
  rw [get?_finalizerPhase]
  split
  · cases (h.softPhase settings reason).1.space.get? a <;> simp
  · rfl

variable (hu : h.space.Unmarked)

include hu

theorem reach_finalizerPhase : (h.finalizerPhase settings reason).1.Reach start id ↔
    h.space.Reach start id := by
  have hp := plain_softPhase settings reason hu
  constructor
  · intro hr
    induction hr with
    | base hs hc =>
      rw [contains_finalizerPhase, Space.contains_of_plain_eq hp] at hc
      exact .base hs hc
    | link _ hl hc ih =>
      rw [contains_finalizerPhase, Space.contains_of_plain_eq hp] at hc
      rw [links_finalizerPhase, Space.links_of_plain_eq hp] at hl
      exact .link ih hl hc
  · intro hr
    induction hr with
    | base hs hc =>
      rw [← Space.contains_of_plain_eq hp, ← contains_finalizerPhase] at hc
      exact .base hs hc
    | link _ hl hc ih =>
      rw [← Space.contains_of_plain_eq hp, ← contains_finalizerPhase] at hc
      rw [← Space.links_of_plain_eq hp, ← links_finalizerPhase settings reason] at hl
      exact .link ih hl hc

theorem closed_finalizerPhase : (h.finalizerPhase settings reason).1.Closed := by
  intro a b ha hl hb
  rw [isMarked_finalizerPhase] at ha ⊢
  rw [contains_finalizerPhase] at hb
  exact closed_softPhase settings reason hu a b ha ((links_finalizerPhase settings reason).mp hl) hb

omit hu in
theorem snd_finalizerPhase : (h.finalizerPhase settings reason).2 =
    (finalizable (h.softPhase settings reason).1.space).filterMap fun id =>
      (((h.softPhase settings reason).1.space.get? id).bind (·.finalizer)).map fun f => (id, f) :=
  snd_takeFinalizers _ _ (nodup_finalizable _) _

theorem mem_finalizerPhase (hm : h.space.Mirrored) :
    (id, f) ∈ (h.finalizerPhase settings reason).2 ↔
      ¬ h.Held settings reason id ∧ ∃ r, h.space.get? id = some r ∧ r.finalizer = some f := by
  have hp := plain_softPhase settings reason hu
  rw [snd_finalizerPhase]
  simp only [List.mem_filterMap, Option.map_eq_some_iff, Option.bind_eq_some_iff, Prod.mk.injEq,
    mem_finalizable_softPhase settings reason hu hm]
  constructor
  · rintro ⟨x, ⟨hheld, -⟩, g, ⟨r, hr, hf⟩, rfl, rfl⟩
    obtain ⟨r₀, hr₀, hpl⟩ := Space.exists_get?_of_plain_eq hp.symm hr
    exact ⟨hheld, r₀, hr₀, by rw [← Record.plain_finalizer, hpl, Record.plain_finalizer, hf]⟩
  · rintro ⟨hheld, r₀, hr₀, hf⟩
    obtain ⟨r, hr, hpl⟩ := Space.exists_get?_of_plain_eq hp hr₀
    exact ⟨id, ⟨hheld, r₀, f, hr₀, hf⟩, f,
      ⟨r, hr, by rw [← Record.plain_finalizer, hpl, Record.plain_finalizer, hf]⟩, rfl, rfl⟩

omit hu in
theorem nodup_map_fst_finalizerPhase :
    ((h.finalizerPhase settings reason).2.map Prod.fst).Nodup := by
  have hsub : ((h.finalizerPhase settings reason).2.map Prod.fst).Sublist
      (finalizable (h.softPhase settings reason).1.space) := by
    rw [snd_finalizerPhase]
    induction finalizable (h.softPhase settings reason).1.space with
    | nil => simp
    | cons id ids ih =>
      rw [List.filterMap_cons]
      split
      · exact ih.cons id
      · rename_i p hp
        obtain ⟨f, -, rfl⟩ := Option.map_eq_some_iff.mp hp
        exact ih.cons_cons id
  exact hsub.nodup (nodup_finalizable _)

theorem mem_toRun (hm : h.space.Mirrored) : (id, f) ∈ h.toRun settings reason ↔
      h.Scheduled settings reason id ∧ ∃ r, h.space.get? id = some r ∧ r.finalizer = some f := by
  unfold toRun Scheduled Finalizing
  split
  · rename_i he
    rw [mem_finalizerPhase settings reason hu hm]
    constructor
    · rintro ⟨hheld, r, hr, hf⟩
      exact ⟨⟨he, hheld, r, f, hr, hf⟩, r, hr, hf⟩
    · rintro ⟨⟨-, hheld, -⟩, hr⟩
      exact ⟨hheld, hr⟩
  · rename_i he
    simp [he]

omit hu in
theorem nodup_map_fst_toRun : ((h.toRun settings reason).map Prod.fst).Nodup := by
  unfold toRun
  split
  · exact nodup_map_fst_finalizerPhase settings reason
  · simp

theorem exists_mem_toRun_iff (hm : h.space.Mirrored) :
    (∃ job ∈ h.toRun settings reason, job.1 = id) ↔ h.Scheduled settings reason id := by
  constructor
  · rintro ⟨⟨x, f⟩, hmem, rfl⟩
    exact ((mem_toRun settings reason hu hm).mp hmem).1
  · intro hs
    obtain ⟨r, f, hr, hf⟩ := hs.2.2
    exact ⟨(id, f), (mem_toRun settings reason hu hm).mpr ⟨hs, r, hr, hf⟩, rfl⟩

theorem lastTrace_spec : (h.lastTrace settings reason).space.Closed ∧
    (h.lastTrace settings reason).space.plain = (h.finalizerPhase settings reason).1.plain ∧
    ∀ x, (h.lastTrace settings reason).space.isMarked x = true ↔
    (h.finalizerPhase settings reason).1.isMarked x = true ∨
    (h.finalizerPhase settings reason).1.Reach (fun y =>
      ∃ job ∈ h.toRun settings reason, job.1 = y) x := by
  have hspec := Trace.foldl_markFrom Prod.fst (h.toRun settings reason)
    (t := { (h.softPhase settings reason).1 with space := (h.finalizerPhase settings reason).1 })
    (work_softPhase settings reason hu) (closed_finalizerPhase settings reason hu)
  exact hspec.2

/-- **The sweep finds exactly the survivors marked.** -/
theorem isMarked_lastTrace_iff (hm : h.space.Mirrored) (x : ObjectId) :
    (h.lastTrace settings reason).space.isMarked x = true ↔ h.Survives settings reason x := by
  rw [(lastTrace_spec settings reason hu).2.2 x, isMarked_finalizerPhase,
    isMarked_softPhase_iff settings reason hu, reach_finalizerPhase settings reason hu]
  simp only [exists_mem_toRun_iff settings reason hu hm]
  unfold Held Survives
  rw [← Space.reach_or_iff]
  simp only [or_assoc]

end LastTrace

section Records

theorem Survives.contains {settings : Settings} {reason : Reason}
    (hs : h.Survives settings reason id) : h.space.contains id = true :=
  Space.Reach.contains hs

theorem Held.survives {settings : Settings} {reason : Reason} (hh : h.Held settings reason id) :
    h.Survives settings reason id :=
  Space.Reach.mono (fun _ hx => hx.elim Or.inl fun hr => Or.inr (Or.inl hr)) hh

theorem Scheduled.survives {settings : Settings} {reason : Reason}
    (hs : h.Scheduled settings reason id) : h.Survives settings reason id := by
  obtain ⟨r, -, hr, -⟩ := hs.2.2
  exact .base (Or.inr (Or.inr hs)) (Space.contains_of_get? hr)

theorem Survives.held_of_disabled {settings : Settings} {reason : Reason}
    (he : settings.finalizerEnabled = false) (hs : h.Survives settings reason id) :
    h.Held settings reason id := by
  refine Space.Reach.mono (fun x hx => ?_) hs
  rcases hx with hx | hx | hx
  · exact Or.inl hx
  · exact Or.inr hx
  · exact absurd hx.1 (by simp [he])

variable (hu : h.space.Unmarked)

variable (hm : h.space.Mirrored)

include hu hm

theorem filter_toRun : ((h.toRun settings reason).filter fun job =>
      (h.lastTrace settings reason).space.contains job.1) = h.toRun settings reason := by
  rw [List.filter_eq_self]
  rintro ⟨id, f⟩ hjob
  obtain ⟨hs, -⟩ := (mem_toRun settings reason hu hm).mp hjob
  have hmk := (isMarked_lastTrace_iff settings reason hu hm id).mpr hs.survives
  obtain ⟨r, hr, -⟩ := Space.isMarked_iff.mp hmk
  exact Space.contains_of_get? hr

theorem marked_lastTrace_iff {r : Record φ}
    (hr : (h.lastTrace settings reason).space.get? id = some r) :
    r.header.marked = true ↔ h.Survives settings reason id := by
  rw [← isMarked_lastTrace_iff settings reason hu hm id]
  simp [Space.isMarked, hr]

open Classical in
theorem count_toRun (id : ObjectId) : ((h.toRun settings reason).map Prod.fst).count id =
      if h.Scheduled settings reason id then 1 else 0 := by
  split
  · next hs =>
      refine List.count_eq_one_of_mem (nodup_map_fst_toRun settings reason) ?_
      obtain ⟨job, hjob, rfl⟩ := (exists_mem_toRun_iff settings reason hu hm).mpr hs
      exact List.mem_map_of_mem hjob
  · next hs =>
      rw [List.count_eq_zero]
      intro hmem
      obtain ⟨job, hjob, rfl⟩ := List.mem_map.mp hmem
      exact hs ((exists_mem_toRun_iff settings reason hu hm).mp ⟨job, hjob, rfl⟩)

open Classical in
/-- **What every name finds after a pause**: an object whose finalizer is scheduled, the same record
as before, or nothing. -/
theorem get?_pause (id : ObjectId) :
    (h.pause settings reason).heap.space.get? id =
      if h.Scheduled settings reason id then (h.space.get? id).map Record.scheduled
      else if h.Survives settings reason id then h.space.get? id else none := by
  rw [space_pause, Space.get?_sweep]
  unfold pinnedSpace
  rw [filter_toRun settings reason hu hm, get?_foldl_pin, count_toRun settings reason hu hm]
  cases hr₀ : h.space.get? id with
  | none =>
    have hlast : (h.lastTrace settings reason).space.get? id = none := by
      rw [← Space.contains_eq_false_iff,
        Space.contains_of_plain_eq (lastTrace_spec settings reason hu).2.1,
        contains_finalizerPhase, Space.contains_of_plain_eq (plain_softPhase settings reason hu),
        Space.contains_eq_false_iff]
      exact hr₀
    simp [hlast]
  | some r₀ =>
    have hself : r₀.plain = r₀ := Record.plain_eq_self (hu id r₀ hr₀)
    obtain ⟨r₁, hr₁, hp₁⟩ := Space.exists_get?_of_plain_eq (plain_softPhase settings reason hu) hr₀
    have hr₂ := get?_finalizerPhase (h := h) settings reason id
    have hmem := mem_finalizable_softPhase settings reason hu hm id
    by_cases hfin : h.Finalizing settings reason id
    · rw [if_pos (hmem.mpr hfin), hr₁, Option.map_some] at hr₂
      obtain ⟨r₃, hr₃, hp₃⟩ :=
        Space.exists_get?_of_plain_eq (lastTrace_spec settings reason hu).2.1 hr₂
      rw [Record.plain_taken, hp₁, hself] at hp₃
      by_cases he : settings.finalizerEnabled = true
      · have hs : h.Scheduled settings reason id := ⟨he, hfin⟩
        have hm₃ := (marked_lastTrace_iff settings reason hu hm hr₃).mpr hs.survives
        obtain ⟨-, r, f, hr, hf⟩ := hfin
        rw [hr₀] at hr
        cases hr
        rw [if_pos hs, if_pos hs, hr₃]
        simp only [Option.map_some, Option.bind_some, hm₃, if_true]
        congr 1
        show ({ r₃ with roots := r₃.roots + 1 } : Record φ).plain = _
        rw [Record.plain_add_roots, hp₃, he, Record.scheduled_eq hf]
      · have hs : ¬ h.Scheduled settings reason id := fun hs => he hs.1
        have hsurv : ¬ h.Survives settings reason id := by
          intro hsurv
          exact hfin.1 (hsurv.held_of_disabled (by simpa using he))
        have hm₃ := mt (marked_lastTrace_iff settings reason hu hm hr₃).mp hsurv
        rw [if_neg hs, if_neg hs, if_neg hsurv, hr₃]
        simp [hm₃]
    · rw [if_neg (mt hmem.mp hfin), hr₁] at hr₂
      obtain ⟨r₃, hr₃, hp₃⟩ :=
        Space.exists_get?_of_plain_eq (lastTrace_spec settings reason hu).2.1 hr₂
      rw [hp₁, hself] at hp₃
      have hs : ¬ h.Scheduled settings reason id := fun hs => hfin hs.2
      rw [if_neg hs, if_neg hs, hr₃]
      by_cases hsurv : h.Survives settings reason id
      · have hm₃ := (marked_lastTrace_iff settings reason hu hm hr₃).mpr hsurv
        rw [if_pos hsurv]
        simp only [Option.map_some, Option.bind_some, hm₃, if_true, Nat.add_zero]
        exact congrArg some hp₃
      · have hm₃ := mt (marked_lastTrace_iff settings reason hu hm hr₃).mp hsurv
        rw [if_neg hsurv]
        simp [hm₃]

omit hm

theorem sound_pause (hs : h.space.Sound) : (h.pause settings reason).heap.space.Sound := by
  have hsoft := hs.of_plain_eq (plain_softPhase settings reason hu)
  have hfin : (h.finalizerPhase settings reason).1.Sound := sound_takeFinalizers _ _ hsoft
  have hlast := hfin.of_plain_eq (lastTrace_spec settings reason hu).2.1
  exact (sound_foldl_pin _ hlast).sweep

end Records

section Jobs

variable (hu : h.space.Unmarked)

variable (hm : h.space.Mirrored)

include hu hm

theorem jobs_pause : (h.pause settings reason).jobs =
      (h.toRun settings reason).map fun job => ⟨⟨h.key, job.1⟩, job.2⟩ := by
  have := filter_toRun settings reason hu hm
  exact congrArg (List.map fun job => (⟨⟨h.key, job.1⟩, job.2⟩ : Job φ)) this

theorem mem_jobs_pause : job ∈ (h.pause settings reason).jobs ↔
    job.object.heap = h.key ∧ h.Scheduled settings reason job.object.object ∧
    ∃ r, h.space.get? job.object.object = some r ∧ r.finalizer = some job.finalizer := by
  rw [jobs_pause settings reason hu hm, List.mem_map]
  constructor
  · rintro ⟨⟨id, f⟩, hmem, rfl⟩
    exact ⟨rfl, (mem_toRun settings reason hu hm).mp hmem⟩
  · rcases job with ⟨⟨key, id⟩, f⟩
    rintro ⟨rfl, hmem⟩
    exact ⟨(id, f), (mem_toRun settings reason hu hm).mpr hmem, rfl⟩

theorem discarded_pause : (h.pause settings reason).discarded =
      if settings.finalizerEnabled then [] else (h.finalizerPhase settings reason).2 := by
  have horphan : ((h.toRun settings reason).filter fun job =>
      !(h.lastTrace settings reason).space.contains job.1) = [] := by
    rw [List.filter_eq_nil_iff]
    intro job hjob
    have := filter_toRun settings reason hu hm
    rw [List.filter_eq_self] at this
    simp [this job hjob]
  unfold lastTrace toRun finalizerPhase softPhase at horphan
  have : (h.pause settings reason).discarded = (if settings.finalizerEnabled then []
        else (h.finalizerPhase settings reason).2) ++ (h.toRun settings reason).filter fun job =>
      !(h.lastTrace settings reason).space.contains job.1 := rfl
  rw [this]
  unfold lastTrace toRun finalizerPhase softPhase
  rw [horphan, List.append_nil]

/-- Without finalization the finalizers of the objects that nothing holds are dropped. -/
theorem mem_discarded_pause : (id, f) ∈ (h.pause settings reason).discarded ↔
    settings.finalizerEnabled = false ∧ ¬ h.Held settings reason id ∧
    ∃ r, h.space.get? id = some r ∧ r.finalizer = some f := by
  rw [discarded_pause settings reason hu hm]
  cases settings.finalizerEnabled with
  | true => simp
  | false => simp [mem_finalizerPhase settings reason hu hm]

end Jobs

section References

variable {i : Nat}

theorem mem_tracked : (i, r) ∈ h.tracked ↔
    i ∈ h.registered ∧ h.references[i]? = some r ∧ r.isTracked = true := by
  unfold tracked
  rw [List.mem_filterMap]
  constructor
  · rintro ⟨j, hj, hr⟩
    cases href : h.references[j]? with
    | none => simp [href] at hr
    | some q =>
      simp only [href] at hr
      split at hr
      · rename_i hq
        cases hr
        exact ⟨hj, href, hq⟩
      · cases hr
  · rintro ⟨hi, href, hr⟩
    exact ⟨i, hi, by simp [href, hr]⟩

/-- A reference that was made pending so many times; only the first time changes its stage. -/
def afterPending (r : Reference) (n : Nat) : Reference :=
  if n = 0 then r else { r.makePending.2 with handles := r.handles + n }

theorem afterPending_succ (r : Reference) (n : Nat) :
    afterPending { r.makePending.2 with handles := r.handles + 1 } n = afterPending r (n + 1) := by
  unfold afterPending Reference.makePending
  split <;> split <;> simp_all <;> omega

theorem getElem?_makePending (refs : Array Reference) (positions : List Nat) (i : Nat) :
    (makePending refs positions)[i]? = (refs[i]?).map fun r =>
    afterPending r (positions.count i) := by
  unfold makePending
  induction positions generalizing refs with
  | nil =>
    rw [List.foldl_nil]
    cases refs[i]? <;> simp [afterPending]
  | cons j positions ih =>
    rw [List.foldl_cons, ih, Array.getElem?_modify, List.count_cons]
    by_cases hj : j = i
    · subst hj
      cases refs[j]? with
      | none => simp
      | some r => simp [afterPending_succ]
    · simp [hj]

theorem references_pause : (h.pause settings reason).heap.references =
      makePending h.references (h.pause settings reason).pending := rfl

theorem pending_pause :
    (h.pause settings reason).pending =
      lost (h.softPhase settings reason).1.space (h.softPhase settings reason).2 ++
        lost (h.softPhase settings reason).1.space (ofKind .weak h.tracked) ++
          lost (h.lastTrace settings reason).space (ofKind .phantom h.tracked) := rfl

theorem mem_lost {s : Space φ} {refs : List (Nat × Reference)} :
    i ∈ lost s refs ↔ ∃ r id, (i, r) ∈ refs ∧ r.referent = some id ∧ s.isMarked id = false := by
  unfold lost
  simp only [List.mem_map, List.mem_filter, Prod.exists, exists_and_right, exists_eq_right]
  constructor
  · rintro ⟨r, hr, hl⟩
    unfold isLost at hl
    cases hid : r.referent with
    | none => simp [hid] at hl
    | some id => exact ⟨r, id, hr, hid, by simpa [hid] using hl⟩
  · rintro ⟨r, id, hr, hid, hm⟩
    exact ⟨r, hr, by simp [isLost, hid, hm]⟩

theorem exists_tracked_of_mem_pending (hi : i ∈ (h.pause settings reason).pending) :
    ∃ r, (i, r) ∈ h.tracked := by
  rw [pending_pause, List.mem_append, List.mem_append] at hi
  rcases hi with (hi | hi) | hi
  · obtain ⟨r, -, hr, -⟩ := mem_lost.mp hi
    have := (retainSoft_sublist _ _ _).subset hr
    exact ⟨r, (mem_ofKind.mp this).1⟩
  · obtain ⟨r, -, hr, -⟩ := mem_lost.mp hi
    exact ⟨r, (mem_ofKind.mp hr).1⟩
  · obtain ⟨r, -, hr, -⟩ := mem_lost.mp hi
    exact ⟨r, (mem_ofKind.mp hr).1⟩

/-- **A tracked reference that is not made pending keeps its object.** -/
theorem survives_of_not_mem_pending (hu : h.space.Unmarked) (hm : h.space.Mirrored) {r : Reference}
    (hr : (i, r) ∈ h.tracked) (hid : r.referent = some id) (hlive : h.space.contains id = true)
    (hi : i ∉ (h.pause settings reason).pending) : h.Survives settings reason id := by
  rw [pending_pause, List.mem_append, List.mem_append, not_or, not_or] at hi
  obtain ⟨⟨hsoft, hweak⟩, hphantom⟩ := hi
  by_contra hsurv
  have hheld : (h.softPhase settings reason).1.space.isMarked id = false := by
    have := mt (fun hh =>
          Held.survives ((isMarked_softPhase_iff settings reason hu id).mp hh)) hsurv
    simpa using this
  cases hk : r.kind with
  | soft =>
    have hmem : (i, r) ∈ ofKind .soft h.tracked := mem_ofKind.mpr ⟨hr, hk⟩
    have hgiven := (mem_retainSoft_of_unmarked (h.softPolicy settings reason)
          _ (Trace.work_markRoots h.space) (Trace.closed_markRoots hu) hmem hid
          (by rw [Space.contains_of_plain_eq (Trace.plain_markRoots h.space)]; exact hlive) hheld).1
    exact hsoft (mem_lost.mpr ⟨r, id, hgiven, hid, hheld⟩)
  | weak => exact hweak (mem_lost.mpr ⟨r, id, mem_ofKind.mpr ⟨hr, hk⟩, hid, hheld⟩)
  | phantom =>
    have hlast : (h.lastTrace settings reason).space.isMarked id = false := by
      have := mt (isMarked_lastTrace_iff settings reason hu hm id).mp hsurv
      simpa using this
    exact hphantom (mem_lost.mpr ⟨r, id, mem_ofKind.mpr ⟨hr, hk⟩, hid, hlast⟩)

end References

end Heap

end ManagedHeap
