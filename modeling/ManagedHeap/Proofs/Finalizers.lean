import ManagedHeap.Proofs.Handles

/-!
# Finalizers run once

**Input.**  A run with its history, and one more move.

**Algorithm.**  A finalizer comes with its object.  A collection takes it from an object that
nothing holds, to make a job of it or to give it up, and a job ends when its finalizer has run or
was dropped.  A job has a root of its object, and an object with a finalizer survives as long as
finalization is on, so neither can be swept.

**Results.**  `World.keepsFinalizers_after`: where every finalizer is, when it moves, and what is
never swept.
-/

namespace ManagedHeap

variable {f : Finalizer} {r : Root}

open Asset Deed

namespace Core

variable {c c' : Core} {p p' : Multiset Asset} {e : Nat}

section Attached

theorem mem_attached_iff (ht : c.Tidy) : (r, f) ∈ c.attached ↔
    ∃ x record, c.heaps[r.heap]? = some x ∧ x.space.get? r.object = some record ∧
    record.finalizer = some f := by
  unfold attached
  rw [mem_total]
  constructor
  · rintro ⟨x, hx, hmem⟩
    obtain ⟨e, he⟩ := Array.getElem?_of_mem hx
    obtain ⟨hkey, hmem⟩ := Heap.mem_attachments.mp hmem
    obtain ⟨record, hrecord, hf⟩ := Space.mem_attached.mp hmem
    rw [(ht e x he).1] at hkey
    exact ⟨x, record, by rw [hkey, he], hrecord, hf⟩
  · rintro ⟨x, record, hx, hrecord, hf⟩
    refine ⟨x, Array.mem_of_getElem? hx,
      Heap.mem_attachments.mpr ⟨?_, Space.mem_attached.mpr ⟨record, hrecord, hf⟩⟩⟩
    exact (ht _ x hx).1.symm

theorem mem_roots_of_job (h : (r, f) ∈ gather jobs (c.assets + p)) : r ∈ c.roots p := by
  obtain ⟨a, ha, hmem⟩ := mem_gather.mp h
  refine mem_roots_of_owned ⟨a, ha, ?_⟩
  cases a with
  | job j =>
    cases List.mem_singleton.mp hmem
    exact List.mem_cons_self
  | _ => simp [jobs] at hmem

/-- Whether an object has at most one finalizer, attached or in a job. -/
def Single (c : Core) (p : Multiset Asset) : Prop :=
  ∀ r, (c.attached.map Prod.fst).count r + ((gather jobs (c.assets + p)).map Prod.fst).count r ≤ 1

def Keeps (c c' : Core) (e : Nat) : Prop :=
  ∀ x, c.heaps[e]? = some x →
    ∃ x', c'.heaps[e]? = some x' ∧ ∀ id, x.space.contains id = true → x'.space.contains id = true

theorem Keeps.of_heaps (h : c'.heaps = c.heaps) :
    c.Keeps c' e := fun x hx => ⟨x, by rw [h, hx], fun _ hid => hid⟩

theorem Keeps.trans (h : c.Keeps c' e) (h' : c'.Keeps c₁ e) : c.Keeps c₁ e := by
  intro x hx
  obtain ⟨x', hx', hkeeps⟩ := h x hx
  obtain ⟨x₁, hx₁, hkeeps'⟩ := h' x' hx'
  exact ⟨x₁, hx₁, fun id hid => hkeeps' id (hkeeps id hid)⟩

theorem Keeps.modifyHeap {e' : Nat} {f : Heap Finalizer → Heap Finalizer}
    (hf : ∀ x, c.heaps[e']? = some x → e' = e → ∀ id, x.space.contains id = true →
      (f x).space.contains id = true) : c.Keeps (c.modifyHeap e' f) e := by
  intro x hx
  rw [heaps_modifyHeap, Array.getElem?_modify]
  by_cases he : e' = e
  · subst he
    rw [if_pos rfl, hx]
    exact ⟨f x, rfl, hf x hx rfl⟩
  · rw [if_neg he]
    exact ⟨x, hx, fun _ hid => hid⟩

end Attached

end Core

namespace Act

variable {c c' : Core} {p p' : Multiset Asset} {deeds : List Deed}

section Sweeping

theorem keeps (h : Act L c p deeds c' p') (ht : c.Tidy) {e : Nat} (hd : .paused e ∉ deeds) :
    c.Keeps c' e := by
  have onRecord : ∀ {e' id f} {n : Heap Finalizer → Nat},
      c.Keeps (c.modifyHeap e' fun x => { x with space := x.space.update id f, faults := n x }) e :=
    Core.Keeps.modifyHeap fun x _ _ id' hid => by rwa [Space.contains_update]
  have onReference : ∀ {e' i g}, c.Keeps (c.modifyHeap e' (·.updateReference i g)) e :=
    Core.Keeps.modifyHeap fun _ _ _ _ hid => hid
  cases h with
  | transfer heaps => exact .of_heaps heaps
  | makeHeap capacity =>
    intro x hx
    have hlt : e < (c.cells.map Cell.heap).size := (Array.getElem?_eq_some_iff.mp hx).1
    refine ⟨x, ?_, fun _ hid => hid⟩
    unfold Core.heaps
    rw [Array.map_push, Array.getElem?_push, if_neg (Nat.ne_of_lt hlt)]
    exact hx
  | makeLine | dequeue | bind | unbind | run | discard => exact .of_heaps rfl
  | fetch | clone | drop | finish | write => exact onRecord
  | store => exact .modifyHeap fun x hx _ id => Heap.contains_store (ht _ x hx).2
  | refer hx hn =>
    refine .modifyHeap fun y hy _ id hid => ?_
    rw [hx] at hy
    cases hy
    rwa [Heap.space_newReference hn]
  | adjust | settle | claim | retain | release | discharge => exact onReference
  | enqueue q k =>
    have hretain : c.Keeps (c.modifyHeap k.heap (·.retain k.position)) e := onReference
    exact hretain.trans (.of_heaps rfl)
  | pause hx settings reason =>
    refine .modifyHeap fun x _ he => ?_
    exact absurd (List.mem_cons_self) (he ▸ hd)

end Sweeping

section Single

theorem allocates_cases (h : Act L c p deeds c' p') : tally allocates deeds = 0 ∨
      ∃ (e : Nat) (x : Heap Finalizer) (f : Finalizer),
        c.heaps[e]? = some x ∧ tally allocates deeds = {(x.nextRoot, f)} := by
  cases h with
  | @store e _ x hx size fields f =>
    cases f with
    | none => exact .inl rfl
    | some f => exact .inr ⟨e, x, f, hx, by simp [allocates]⟩
  | pause =>
    left
    rw [tally_cons, tally_append, tally_map_of_nil _ fun _ => rfl, tally_map_of_nil _ fun _ => rfl]
    rfl
  | _ => exact .inl rfl

theorem single (h : Act L c p deeds c' p') (ht : c.Tidy) (hb : c.Balanced p) (hs : c.Single p) :
    c'.Single p' := by
  intro r
  have hattached := congrArg (fun m => (m.map Prod.fst).count r) (h.attached_add ht)
  have hjobs := congrArg (fun m => (m.map Prod.fst).count r) h.jobs_add
  simp only [Multiset.map_add, Multiset.count_add] at hattached hjobs
  have hbefore := hs r
  rcases h.allocates_cases with hnone | ⟨e, x, f, hx, hone⟩
  · rw [hnone] at hattached
    simp only [Multiset.map_zero, Multiset.count_zero] at hattached
    omega
  · rw [hone] at hattached
    simp only [Multiset.map_singleton, Multiset.count_singleton] at hattached
    by_cases hr : r = x.nextRoot
    · -- nothing can have been known of an object that is new
      subst hr
      obtain ⟨rfl, htidy⟩ := ht e x hx
      have hfresh : ∀ y, c.heaps[x.nextRoot.heap]? = some y →
          y.space.get? x.nextRoot.object = none := by
        intro y hy
        cases hx.symm.trans hy
        exact htidy.sound.get?_nextId
      have hno : (c.attached.map Prod.fst).count x.nextRoot = 0 := by
        refine Multiset.count_eq_zero.mpr fun hmem => ?_
        obtain ⟨⟨_, g⟩, hmem, rfl⟩ := Multiset.mem_map.mp hmem
        obtain ⟨y, record, hy, hrecord, -⟩ := (Core.mem_attached_iff ht).mp hmem
        rw [hfresh y hy] at hrecord
        cases hrecord
      have hnojobs : ((gather jobs (c.assets + p)).map Prod.fst).count x.nextRoot = 0 := by
        refine Multiset.count_eq_zero.mpr fun hmem => ?_
        obtain ⟨⟨_, g⟩, hmem, rfl⟩ := Multiset.mem_map.mp hmem
        obtain ⟨y, hy, hlive⟩ := hb.live (Core.mem_roots_of_job hmem)
        obtain ⟨record, hrecord⟩ := Space.contains_iff.mp hlive
        rw [hfresh y hy] at hrecord
        cases hrecord
      simp only [if_true] at hattached
      omega
    · rw [if_neg hr] at hattached
      omega

end Single

end Act

theorem Acts.keeps (h : Acts L c p deeds c' p') (ht : c.Tidy) (hd : .paused e ∉ deeds) :
    c.Keeps c' e := by
  induction h with
  | nil => exact .of_heaps rfl
  | cons first _ ih =>
    rw [List.mem_append, not_or] at hd
    exact (first.keeps ht hd.1).trans (ih (first.tidy ht) hd.2)

def Deed.OfPause : Deed → Prop
  | .paused _ | .scheduled .. | .discarded .. => True
  | _ => False

namespace World

variable {w w' : World} {t e : Nat} {m : Move} {d : Deed}

section Pauses

theorem exists_step_of_mem_deeds (h : d ∈ w.deeds m) :
    ∃ t task rest after, m = .step t ∧ w.nextTask t = some task ∧
      (w.take t rest).runTask t task = some after ∧ (w.move m).core = after.core ∧
        w.deeds m = (w.take t rest).deedsOf t task := by
  cases m with
  | step t =>
    have hsome : (w.step t).isSome = true := by
      by_contra hno
      simp [deeds, hno] at h
    obtain ⟨w', hstep⟩ := Option.isSome_iff_exists.mp hsome
    have hdeeds : w.deeds (.step t) = w.stepDeeds t := if_pos hsome
    have hmove : w.move (.step t) = w' := by simp [move, hstep]
    obtain ⟨x, task, rest, after, hx, htasks, hrun, rfl⟩ := exists_task_of_step hstep
    refine ⟨t, task, rest, after, rfl, by simp [nextTask, hx, htasks], hrun, ?_, ?_⟩
    · rw [hmove]
      exact core_modifyThread fun _ => rfl
    · rw [hdeeds, stepDeeds_eq hx htasks]
  | _ => cases h

theorem not_ofPause_of_mem_storeDeeds {r : Request} (h : d ∈ w.storeDeeds e r) : ¬d.OfPause := by
  unfold storeDeeds at h
  split at h
  · obtain ⟨f, -, rfl⟩ := List.mem_map.mp h
    exact id
  · cases h

theorem exists_pause_of_mem_deedsOf (hd : d.OfPause) (h : d ∈ w.deedsOf t task) :
    ∃ e cycle reason, task = .pause e cycle reason ∧ d ∈ w.pauseDeeds t e reason := by
  have hclaim : ∀ {k old}, d ∉ w.claimDeeds k old := by
    intro k old hmem
    unfold claimDeeds at hmem
    split at hmem
    · cases List.mem_singleton.mp hmem
      exact hd
    · cases hmem
  have hpop : ∀ {q}, d ∉ w.popDeeds q := by
    intro q hmem
    unfold popDeeds at hmem
    split at hmem
    · cases List.mem_singleton.mp hmem
      exact hd
    · cases hmem
  unfold deedsOf at h
  split at h
  · unfold attemptDeeds at h
    split at h
    · split at h
      · cases h
      · split at h
        · exact absurd hd (not_ofPause_of_mem_storeDeeds h)
        · cases h
    · cases h
  · unfold retryDeeds at h
    split at h
    · cases h
    · split at h
      · exact absurd hd (not_ofPause_of_mem_storeDeeds h)
      · cases h
  · exact ⟨_, _, _, rfl, h⟩
  · cases List.mem_singleton.mp h
    exact hd.elim
  · unfold bodyDeeds at h
    split at h
    · cases List.mem_singleton.mp h
      exact hd.elim
    · cases List.mem_singleton.mp h
      exact hd.elim
    · cases h
  · split at h
    · exact absurd h hclaim
    · cases h
  · exact absurd h hclaim
  · exact absurd h hclaim
  · cases List.mem_singleton.mp h
    exact hd.elim
  · exact absurd h hpop
  · exact absurd h hpop
  · cases h

theorem exists_pause_of_mem_deeds (hd : d.OfPause) (h : d ∈ w.deeds m) : ∃ t e cycle reason x,
    m = .step t ∧ w.nextTask t = some (.pause e cycle reason) ∧ w.engines[e]? = some x ∧
    (w.move m).core.heaps[e]? = some (x.heap.pause x.settings reason).heap ∧
    w.deeds m = .paused e :: (((x.heap.pause x.settings reason).jobs.map fun j =>
      .scheduled j.object j.finalizer) ++ (x.heap.pause x.settings reason).discarded.map fun d =>
      .discarded ⟨x.heap.key, d.1⟩ d.2) := by
  obtain ⟨t, task, rest, after, rfl, hnext, hrun, hcore, hdeeds⟩ := exists_step_of_mem_deeds h
  rw [hdeeds] at h
  obtain ⟨e, cycle, reason, rfl, hmem⟩ := exists_pause_of_mem_deedsOf hd h
  have hpause : w.deeds (.step t) = (w.take t rest).pauseDeeds t e reason := hdeeds
  cases hrun
  unfold pauseDeeds at hmem hpause
  split at hmem
  · next threads x hr hx =>
      refine ⟨t, e, cycle, reason, x, rfl, hnext, hx, ?_, by rw [hpause, hr, hx]⟩
      rw [hcore, heaps_pauseWorld hx hr, Array.getElem?_modify, if_pos rfl, heaps_core hx]
      rfl
  · cases hmem

end Pauses

def attached (w : World) : Multiset (Root × Finalizer) := w.core.attached

/-- The finalizers of jobs that are neither done nor dropped, on channels and with threads. -/
def outstanding (w : World) : Multiset (Root × Finalizer) := gather jobs w.core.assets

/-- Where the finalizers of all objects are, in a world with a history. -/
structure KeepsFinalizers (w : World) (past : List Deed) : Prop where
  /-- A finalizer that came with an object is attached or in a job, or it has run or was dropped. -/
  ledger :
    w.attached + (w.outstanding + (tally runs past + (tally drops past + tally discards past))) =
      tally allocates past
  once : ∀ r f, (tally runs past).count (r, f) ≤ (tally allocates past).count (r, f)
  /-- An object has one finalizer at most, and that in one place. -/
  single : ∀ r, (w.attached.map Prod.fst).count r + (w.outstanding.map Prod.fst).count r ≤ 1
  /-- An attached finalizer is on the record of its object. -/
  attached : ∀ r f, (r, f) ∈ w.attached ↔ ∃ x record, w.engines[r.heap]? = some x ∧
    x.heap.space.get? r.object = some record ∧ record.finalizer = some f
  /-- The object of a job is there. -/
  live : ∀ r f, (r, f) ∈ w.outstanding → ∃ x, w.engines[r.heap]? = some x ∧
    x.heap.space.contains r.object = true
  /-- A job is made in a pause, from the finalizer of an object that neither roots nor retained soft
  references reach. -/
  scheduled : ∀ m r f, .scheduled r f ∈ w.deeds m → ∃ t cycle reason x, m = .step t ∧ w.nextTask t =
      some (.pause r.heap cycle reason) ∧ w.engines[r.heap]? = some x ∧ (r, f) ∈ w.attached ∧
    x.settings.finalizerEnabled = true ∧ ¬x.heap.Held x.settings reason r.object
  /-- A pause gives a finalizer up if finalization is off, and takes the object away. -/
  discarded : ∀ m r f, .discarded r f ∈ w.deeds m → ∃ t cycle reason x x', m = .step t ∧
    w.nextTask t = some (.pause r.heap cycle reason) ∧ w.engines[r.heap]? = some x ∧
    (r, f) ∈ w.attached ∧ x.settings.finalizerEnabled = false ∧
    (w.move m).engines[r.heap]? = some x' ∧ x'.heap.space.contains r.object = false
  /-- An object that is taken away has no job, and its finalizer, if it had one, is given up in the
  same move. -/
  swept : ∀ m e x x' id, w.engines[e]? = some x → x.heap.space.contains id = true →
    (w.move m).engines[e]? = some x' → x'.heap.space.contains id = false →
    (∀ f, (⟨e, id⟩, f) ∉ w.outstanding) ∧ (∀ f, (⟨e, id⟩, f) ∉ (w.move m).outstanding) ∧
    ∀ f, (⟨e, id⟩, f) ∈ w.attached → x.settings.finalizerEnabled = false ∧
    .discarded ⟨e, id⟩ f ∈ w.deeds m

section Keeping

variable (s : EngineSpec) (label : String) (moves : List Move) {x : Runtime} {id : ObjectId}

theorem regular_after : ((start s label).after moves).core.Regular :=
  (acts_after s label moves).progress.2 regular_empty

theorem single_after : ((start s label).after moves).core.Single 0 :=
  (invariant_after (P := fun c p _ => c.Coherent p ∧ c.Single p)
    (fun hreg h hc => ⟨h.coherent hreg hc.1, h.single hc.1.tidy hc.1.balanced hc.2⟩)
    ⟨Core.coherent_empty, fun r => by simp [attached_empty, assets_empty]⟩ s label moves).2

theorem exists_pause_of_swept (hreg : w.core.Regular) (ht : w.core.Tidy)
    (hx : w.engines[e]? = some x) (hid : x.heap.space.contains id = true)
    (hx' : (w.move m).engines[e]? = some x') (hid' : x'.heap.space.contains id = false) :
    ∃ t cycle reason, m = .step t ∧ w.nextTask t = some (.pause e cycle reason) ∧
    ¬x.heap.Survives x.settings reason id ∧ ∀ j ∈ (x.heap.pause x.settings reason).discarded,
    .discarded ⟨x.heap.key, j.1⟩ j.2 ∈ w.deeds m := by
  have hpaused : .paused e ∈ w.deeds m := by
    by_contra hd
    obtain ⟨y, hy, hkeeps⟩ := (acts_move hreg m).keeps ht hd x.heap (heaps_core hx)
    rw [heaps_core hx'] at hy
    cases hy
    rw [hkeeps id hid] at hid'
    cases hid'
  obtain ⟨t, e', cycle, reason, y, rfl, hnext, hy, hheap, hdeeds⟩ :=
    exists_pause_of_mem_deeds (d := .paused e) trivial hpaused
  obtain rfl : e = e' := by
    rw [hdeeds] at hpaused
    simpa using hpaused
  cases hx.symm.trans hy
  have hafter : x'.heap = (x.heap.pause x.settings reason).heap :=
    Option.some.inj ((heaps_core hx').symm.trans hheap)
  refine ⟨t, cycle, reason, rfl, hnext, fun hsurv => ?_, fun j hj => ?_⟩
  · rw [hafter,
      (Heap.contains_pause (ht e x.heap (heaps_core hx)).2 x.settings reason id).mpr hsurv] at hid'
    cases hid'
  · rw [hdeeds]
    exact List.mem_cons_of_mem _ (List.mem_append_right _ (List.mem_map.mpr ⟨j, hj, rfl⟩))

theorem mem_attached (ht : w.core.Tidy) : (r, f) ∈ w.attached ↔
      ∃ x record, w.engines[r.heap]? = some x ∧ x.heap.space.get? r.object = some record ∧
        record.finalizer = some f := by
  unfold attached
  rw [Core.mem_attached_iff ht]
  constructor
  · rintro ⟨y, record, hy, hrecord, hf⟩
    obtain ⟨x, hx, rfl⟩ := exists_engine_of_heap hy
    exact ⟨x, record, hx, hrecord, hf⟩
  · rintro ⟨x, record, hx, hrecord, hf⟩
    exact ⟨x.heap, record, heaps_core hx, hrecord, hf⟩

theorem exists_pause_of_scheduled (ht : w.core.Tidy) (h : .scheduled r f ∈ w.deeds m) :
    ∃ t cycle reason x, m = .step t ∧ w.nextTask t = some (.pause r.heap cycle reason) ∧
      w.engines[r.heap]? = some x ∧ (r, f) ∈ w.attached ∧ x.settings.finalizerEnabled = true ∧
        ¬x.heap.Held x.settings reason r.object := by
  obtain ⟨t, e, cycle, reason, x, rfl, hnext, hx, -, hdeeds⟩ :=
    exists_pause_of_mem_deeds (d := .scheduled r f) trivial h
  obtain ⟨hkey, htidy⟩ := ht e x.heap (heaps_core hx)
  rw [hdeeds] at h
  simp only [List.mem_cons, reduceCtorEq, List.mem_append, List.mem_map, Deed.scheduled.injEq,
    and_false, exists_false, or_false, false_or] at h
  obtain ⟨j, hj, rfl, rfl⟩ := h
  obtain ⟨hheap, hscheduled, hrecord⟩ :=
    (Heap.mem_jobs_pause x.settings reason htidy.unmarked htidy.mirrored).mp hj
  obtain rfl : j.object.heap = e := hheap.trans hkey
  obtain ⟨record, hget, hf⟩ := hrecord
  exact ⟨t, cycle, reason, x, rfl, hnext, hx, (mem_attached ht).mpr ⟨x, record, hx, hget, hf⟩,
    hscheduled.1, hscheduled.2.1⟩

/-- A finalizer is given up when finalization is off, and its object is taken away. -/
theorem exists_pause_of_discarded (ht : w.core.Tidy) (h : .discarded r f ∈ w.deeds m) :
    ∃ t cycle reason x x', m = .step t ∧ w.nextTask t = some (.pause r.heap cycle reason) ∧
      w.engines[r.heap]? = some x ∧ (r, f) ∈ w.attached ∧ x.settings.finalizerEnabled = false ∧
        (w.move m).engines[r.heap]? = some x' ∧ x'.heap.space.contains r.object = false := by
  obtain ⟨t, e, cycle, reason, x, rfl, hnext, hx, hheap, hdeeds⟩ :=
    exists_pause_of_mem_deeds (d := .discarded r f) trivial h
  obtain ⟨hkey, htidy⟩ := ht e x.heap (heaps_core hx)
  rw [hdeeds] at h
  simp only [List.mem_cons, reduceCtorEq, List.mem_append, List.mem_map, Deed.discarded.injEq,
    and_false, exists_false, false_or] at h
  obtain ⟨⟨id, g⟩, hmem, rfl, rfl⟩ := h
  obtain ⟨hoff, hheld, record, hget, hf⟩ :=
    (Heap.mem_discarded_pause x.settings reason htidy.unmarked htidy.mirrored).mp hmem
  dsimp only
  rw [hkey]
  obtain ⟨x', hx', hafter⟩ := exists_engine_of_heap hheap
  refine ⟨t, cycle, reason, x, x', rfl, hnext, hx, (mem_attached ht).mpr ⟨x, record, hx, hget, hf⟩,
    hoff, hx', ?_⟩
  -- without finalization only what is held survives
  rw [hafter, Bool.eq_false_iff]
  intro hlive
  exact hheld (((Heap.contains_pause htidy x.settings reason id).mp hlive).held_of_disabled hoff)

theorem exists_live_of_outstanding (hc : w.core.Coherent 0) (hmem : (r, f) ∈ w.outstanding) :
    ∃ x, w.engines[r.heap]? = some x ∧ x.heap.space.contains r.object = true := by
  obtain ⟨y, hy, hlive⟩ := hc.balanced.live (Core.mem_roots_of_job (by rwa [add_zero]))
  obtain ⟨x, hx, rfl⟩ := exists_engine_of_heap hy
  exact ⟨x, hx, hlive⟩

theorem not_mem_outstanding_of_not_survives (hc : w.core.Coherent 0) (hx : w.engines[e]? = some x)
    (hid : x.heap.space.contains id = true) (hsurv : ¬x.heap.Survives x.settings reason id)
    (f : Finalizer) : (⟨e, id⟩, f) ∉ w.outstanding := by
  intro hmem
  obtain ⟨y, hy, hrooted⟩ := hc.balanced.rooted (Core.mem_roots_of_job (by rwa [add_zero]))
  cases (heaps_core hx).symm.trans hy
  exact hsurv (.base (.inl hrooted) hid)

/-- What a pause is going to sweep has a finalizer only if finalization is off; the pause gives it
up. -/
theorem mem_discarded_of_not_survives (ht : w.core.Tidy) (hx : w.engines[e]? = some x)
    (hsurv : ¬x.heap.Survives x.settings reason id) (hmem : (⟨e, id⟩, f) ∈ w.attached) :
    x.settings.finalizerEnabled = false ∧ (id, f) ∈ (x.heap.pause x.settings reason).discarded := by
  obtain ⟨-, htidy⟩ := ht e x.heap (heaps_core hx)
  obtain ⟨y, record, hy, hget, hf⟩ := (mem_attached ht).mp hmem
  cases hx.symm.trans hy
  have hheld : ¬x.heap.Held x.settings reason id := fun hheld => hsurv hheld.survives
  cases hon : x.settings.finalizerEnabled with
  | true => exact absurd (Heap.Scheduled.survives ⟨hon, hheld, record, f, hget, hf⟩) hsurv
  | false =>
    exact ⟨rfl, (Heap.mem_discarded_pause x.settings reason htidy.unmarked htidy.mirrored).mpr
      ⟨hon, hheld, record, hget, hf⟩⟩

/-- **A finalizer has one place at a time and runs at most once.**  After any moves, the finalizers
that came with objects are attached to their records or in jobs, or they have run or were dropped,
each once; jobs are made in pauses from what nothing holds; and no object is swept that has a
finalizer or a job, unless finalization is off and the finalizer is given up with it. -/
theorem keepsFinalizers_after :
    ((start s label).after moves).KeepsFinalizers ((start s label).history moves) := by
  have hattached := attached_after s label moves
  have hjobs := jobs_after s label moves
  have hc := coherent_after s label moves
  have hsingle := single_after s label moves
  have hreg := regular_after s label moves
  have hnext : ∀ m, (((start s label).after moves).move m).core.Coherent 0 := by
    intro m
    have h := coherent_after s label (moves ++ [m])
    rwa [after_append] at h
  generalize (start s label).after moves = w at hattached hjobs hc hsingle hreg hnext
  generalize (start s label).history moves = past at hattached hjobs
  have hledger : w.attached + (w.outstanding +
        (tally runs past + (tally drops past + tally discards past))) = tally allocates past := by
    rw [← hattached, ← hjobs]
    unfold World.attached outstanding
    abel
  constructor
  case ledger => exact hledger
  case once =>
    intro r f
    rw [← hledger]
    simp only [Multiset.count_add]
    omega
  case single =>
    intro r
    have h := hsingle r
    rwa [add_zero] at h
  case attached => exact fun r f => mem_attached hc.tidy
  case live => exact fun r f hmem => exists_live_of_outstanding hc hmem
  case scheduled => exact fun m r f h => exists_pause_of_scheduled hc.tidy h
  case discarded => exact fun m r f h => exists_pause_of_discarded hc.tidy h
  case swept =>
    intro m e x x' id hx hid hx' hid'
    obtain ⟨t, cycle, reason, rfl, -, hsurv, hgiven⟩ :=
      exists_pause_of_swept hreg hc.tidy hx hid hx' hid'
    have hkey := (hc.tidy e x.heap (heaps_core hx)).1
    refine ⟨not_mem_outstanding_of_not_survives hc hx hid hsurv, fun f hmem => ?_, fun f hmem => ?_⟩
    · -- the object of a job would still be there
      obtain ⟨y, hy, hlive⟩ := exists_live_of_outstanding (hnext _) hmem
      cases hx'.symm.trans hy
      rw [hlive] at hid'
      cases hid'
    · obtain ⟨hoff, hdiscarded⟩ := mem_discarded_of_not_survives hc.tidy hx hsurv hmem
      have hdeed := hgiven _ hdiscarded
      rw [hkey] at hdeed
      exact ⟨hoff, hdeed⟩

/-- A runtime that is started; its first thread is the one that runs finalizers. -/
def startedEngine : EngineSpec := ⟨some .standard, .unreachable, true⟩

/-- An instruction for the second thread, with so many steps. -/
def ordered (number : Nat) (i : Instruction) (steps : Nat) : List Move :=
  .instruct 1 number false i :: List.replicate steps (.step 1)

/-- A finalizer brings its object back; then the object is dropped and collected a second time. -/
def resurrectionMoves : List Move :=
  .call "main" ::
    (ordered 0 (.allocate "gc"
        { size := 16, finalizer := some ⟨"back", [.resurrect (some "back")], []⟩ } none) 8 ++
      ordered 1 (.collect "gc" (some .explicit)) 40 ++ List.replicate 30 (.step 0) ++
      ordered 2 (.dropRoots ["back"]) 5 ++ ordered 3 (.collect "gc" (some .explicit)) 40)

/-- An object that was brought back is taken away without a second run of its finalizer. -/
theorem keepsFinalizers_resurrection : ∃ f, (start startedEngine "gc").history resurrectionMoves =
      [.allocated ⟨0, ⟨0, 1⟩⟩ f, .paused 0, .scheduled ⟨0, ⟨0, 1⟩⟩ f, .ran ⟨0, ⟨0, 1⟩⟩ f,
      .paused 0] ∧ ((start startedEngine "gc").after resurrectionMoves).attached = 0 ∧
    ((start startedEngine "gc").after resurrectionMoves).outstanding = 0 := by
  have hhistory : (start startedEngine "gc").history resurrectionMoves =
      [.allocated ⟨0, ⟨0, 1⟩⟩ ⟨"back", [.resurrect (some "back")], []⟩, .paused 0,
        .scheduled ⟨0, ⟨0, 1⟩⟩ ⟨"back", [.resurrect (some "back")], []⟩,
        .ran ⟨0, ⟨0, 1⟩⟩ ⟨"back", [.resurrect (some "back")], []⟩, .paused 0] := by decide +kernel
  refine ⟨_, hhistory, ?_⟩
  have hledger := (keepsFinalizers_after startedEngine "gc" resurrectionMoves).ledger
  rw [hhistory] at hledger
  have hcard := congrArg Multiset.card hledger
  simp only [tally_cons, tally_nil, runs, drops, discards, allocates, Multiset.card_add,
    Multiset.coe_card, List.length_nil, List.length_singleton, Multiset.card_zero] at hcard
  exact ⟨Multiset.card_eq_zero.mp (by omega), Multiset.card_eq_zero.mp (by omega)⟩

end Keeping

end World

end ManagedHeap
