import ManagedHeap.Proofs.Clearing

/-!
# Phantom references come after finalizers

**Input.**  A run with its history, and a collection as its next move.

**Algorithm.**  A pause looks at phantom references last, by the marks that the sweep goes by.  What
has a finalizer or a job, and all that it reaches, is marked then: a job has a root of its object,
and finalizers that are going to run have been followed.

**Results.**  `World.deliversPhantoms_after`: a phantom reference is made pending by the pause that
sweeps its object, and nothing is left of the finalizers of that object.
-/

namespace ManagedHeap

open Asset Deed

namespace Heap

variable {h : Heap Finalizer} {i : Nat} {r : Reference} {id : ObjectId}

section Phantoms

/-- **A phantom reference is made pending exactly by the pause that sweeps its object.** -/
theorem phantom_pending_iff_swept (ht : h.Tidy) (hk : h.Tracks) (ho : h.Orderly)
    (settings : Settings) (reason : Reason) (hr : h.references[i]? = some r)
    (hkind : r.kind = .phantom) (htracked : r.isTracked = true) (hid : r.referent = some id) :
    ∃ r', (h.pause settings reason).heap.references[i]? = some r' ∧ (r'.stage = .pending ↔
      h.space.contains id = true ∧ (h.pause settings reason).heap.space.contains id = false) := by
  have hpending : i ∈ (h.pause settings reason).pending ↔ ¬h.Survives settings reason id := by
    rw [mem_pending_iff ht hk hr htracked hid, Clears, hkind]
  have hswept : (h.pause settings reason).heap.space.contains id = false ↔
      ¬h.Survives settings reason id := by
    rw [← contains_pause ht settings reason id, Bool.not_eq_true]
  by_cases hi : i ∈ (h.pause settings reason).pending
  · refine ⟨r.pended, getElem?_pause_of_mem ho hr hi, fun _ => ⟨?_, ?_⟩, fun _ => rfl⟩
    · exact (hk i r id hr htracked hid).2
    · exact hswept.mpr (hpending.mp hi)
  · refine ⟨r, (getElem?_pause_of_not_mem hi).trans hr, fun hstage => ?_, fun hgone => ?_⟩
    · rw [(Reference.isTracked_iff.mp htracked).2.1] at hstage
      cases hstage
    · exact absurd (hpending.mpr (hswept.mp hgone.2)) hi

end Phantoms

end Heap

namespace World

variable {w : World} {e : Nat} {m : Move}

/-- Whether nothing is left of the finalizers of an object after a move. -/
structure DoneWithFinalizers (w : World) (past : List Deed) (m : Move) (object : Root) : Prop where
  /-- There is no job for it, before the move or after. -/
  unscheduled : ∀ f, (object, f) ∉ w.outstanding ∧ (object, f) ∉ (w.move m).outstanding
  detached : ∀ f, (object, f) ∉ (w.move m).attached
  /-- A finalizer that was attached until now is given up by the move. -/
  discarded : ∀ f, (object, f) ∈ w.attached → .discarded object f ∈ w.deeds m
  /-- A finalizer that it came with has run, to its end or to a panic, or was dropped or given
  up. -/
  accounted : ∀ f, (tally allocates (past ++ w.deeds m)).count (object, f) =
      (tally runs (past ++ w.deeds m)).count (object, f) + ((tally drops (past ++
      w.deeds m)).count (object, f) + (tally discards (past ++ w.deeds m)).count (object, f))

/-- When phantom references are made pending, in a world with a history. -/
structure DeliversPhantoms (w : World) (past : List Deed) : Prop where
  collection : ∀ m e, .paused e ∈ w.deeds m → ∃ x reason, w.Collects m e x reason
  /-- One that is held, active and not cleared is made pending by a pause if that pause sweeps its
  object, and only then. -/
  pended : ∀ (e : Nat) (x : Runtime), w.engines[e]? = some x →
    ∀ settings reason (i : Nat) (r : Reference) (id : ObjectId), x.heap.references[i]? = some r →
    r.kind = .phantom → r.isTracked = true → r.referent = some id →
    ∃ r', (x.heap.pause settings reason).heap.references[i]? = some r' ∧
    (r'.stage = .pending ↔ x.heap.space.contains id = true ∧
      (x.heap.pause settings reason).heap.space.contains id = false)
  /-- The finalizers of that object are done with when a collection makes it pending. -/
  finalized : ∀ m e x reason, w.Collects m e x reason → ∀ (i : Nat) (r r' : Reference)
    (id : ObjectId), x.heap.references[i]? = some r → r.kind = .phantom → r.isTracked = true →
    r.referent = some id → (w.move m).reference? ⟨e, i⟩ = some r' → r'.stage = .pending →
    w.DoneWithFinalizers past m ⟨e, id⟩

section Finalized

variable (s : EngineSpec) (label : String) (moves : List Move)

/-- Every finalizer that came with an object is attached or in a job, or it has run or was
dropped. -/
theorem ledger_after :
    ((start s label).after moves).attached + (((start s label).after moves).outstanding +
      (tally runs ((start s label).history moves) + (tally drops ((start s label).history moves) +
      tally discards ((start s label).history moves)))) =
      tally allocates ((start s label).history moves) := by
  rw [← attached_after s label moves, ← jobs_after s label moves]
  unfold World.attached outstanding
  abel

/-- **What a move sweeps has no finalizer left.** -/
theorem doneWithFinalizers_of_swept {x x' : Runtime} {id : ObjectId}
    (hx : ((start s label).after moves).engines[e]? = some x)
    (hid : x.heap.space.contains id = true)
    (hx' : (((start s label).after moves).move m).engines[e]? = some x')
    (hid' : x'.heap.space.contains id = false) :
    ((start s label).after moves).DoneWithFinalizers ((start s label).history moves) m ⟨e, id⟩ := by
  have hc := coherent_after s label moves
  have hc' := coherent_after s label (moves ++ [m])
  have hledger := ledger_after s label (moves ++ [m])
  have hone : ((start s label).after moves).history [m] = ((start s label).after moves).deeds m :=
    List.append_nil _
  rw [after_append] at hc' hledger
  rw [history_append, hone] at hledger
  obtain ⟨t, cycle, reason, rfl, -, hsurv, hgiven⟩ :=
    exists_pause_of_swept (regular_after s label moves) hc.tidy hx hid hx' hid'
  generalize (start s label).after moves = w at *
  generalize (start s label).history moves = past at *
  have hkey := (hc.tidy e x.heap (heaps_core hx)).1
  have houtstanding : ∀ f, (⟨e, id⟩, f) ∉ (w.move (.step t)).outstanding := by
    intro f hmem
    obtain ⟨y, hy, hlive⟩ := exists_live_of_outstanding hc' hmem
    cases hx'.symm.trans hy
    rw [hlive] at hid'
    cases hid'
  have hattached : ∀ f, (⟨e, id⟩, f) ∉ (w.move (.step t)).attached := by
    intro f hmem
    obtain ⟨y, record, hy, hget, -⟩ := (mem_attached hc'.tidy).mp hmem
    cases hx'.symm.trans hy
    rw [Space.contains_of_get? hget] at hid'
    cases hid'
  constructor
  case unscheduled => exact fun f =>
    ⟨not_mem_outstanding_of_not_survives hc hx hid hsurv f, houtstanding f⟩
  case detached => exact hattached
  case discarded =>
    intro f hmem
    have hdeed := hgiven _ (mem_discarded_of_not_survives hc.tidy hx hsurv hmem).2
    rwa [hkey] at hdeed
  case accounted =>
    intro f
    have hcount := congrArg (Multiset.count (⟨e, id⟩, f)) hledger
    simp only [Multiset.count_add] at hcount
    have hnone : (w.move (.step t)).attached.count (⟨e, id⟩, f) = 0 :=
      Multiset.count_eq_zero.mpr (hattached f)
    have hnojob : (w.move (.step t)).outstanding.count (⟨e, id⟩, f) = 0 :=
      Multiset.count_eq_zero.mpr (houtstanding f)
    have hlater : w.after [.step t] = w.move (.step t) := rfl
    rw [hlater] at hcount
    omega

/-- **Phantom delivery coincides with reclamation and comes after finalization.**  In any heap of
any run, a phantom reference that is held, active and not cleared is made pending by a pause exactly
if the pause sweeps its object.  At that moment the object has no job, and all finalizers that it
came with have run, panicked or been given up. -/
theorem deliversPhantoms_after :
    ((start s label).after moves).DeliversPhantoms ((start s label).history moves) := by
  have hc := coherent_after s label moves
  have ho := orderly_after s label moves
  have hpended : ∀ (e : Nat) (x : Runtime), ((start s label).after moves).engines[e]? = some x →
      ∀ settings reason (i : Nat) (r : Reference) (id : ObjectId), x.heap.references[i]? = some r →
      r.kind = .phantom → r.isTracked = true → r.referent = some id →
      ∃ r', (x.heap.pause settings reason).heap.references[i]? = some r' ∧
      (r'.stage = .pending ↔ x.heap.space.contains id = true ∧
        (x.heap.pause settings reason).heap.space.contains id = false) := by
    intro e x hx settings reason i r id hr hkind htracked hid
    have hheap := heaps_core hx
    exact Heap.phantom_pending_iff_swept (hc.tidy e _ hheap).2 (hc.tracking e _ hheap)
      (ho e _ hheap) settings reason hr hkind htracked hid
  constructor
  case collection => exact fun m e h => exists_collects h
  case pended => exact hpended
  case finalized =>
    intro m e x reason hcollects i r r' id hr hkind htracked hid hr' hstage
    obtain ⟨x', hx', hafter⟩ := hcollects.heap
    obtain ⟨r₁, hr₁, hiff⟩ :=
      hpended e x hcollects.engine x.settings reason i r id hr hkind htracked hid
    have hsame : (((start s label).after moves).move m).reference? ⟨e, i⟩ = some r₁ :=
      Option.bind_eq_some_iff.mpr ⟨x', hx', by rw [hafter]; exact hr₁⟩
    cases hsame.symm.trans hr'
    obtain ⟨hlive, hswept⟩ := hiff.mp hstage
    exact doneWithFinalizers_of_swept s label moves hcollects.engine hlive hx'
      (by rw [hafter]; exact hswept)

/-- A first collection has cleared the weak reference and made a job, the finalizer has run, and a
second collection is about to pause. -/
def secondMoves : List Move :=
  watchedMoves ++ ordered 6 (.collect "gc" (some .explicit)) 40 ++ List.replicate 30 (.step 0) ++
    ordered 7 (.collect "gc" (some .explicit)) 9

/-- The phantom reference is made pending only by the second collection, when the finalizer has
run. -/
theorem deliversPhantoms_second :
    (start startedEngine "gc").history secondMoves = [.allocated ⟨0, ⟨0, 1⟩⟩ ⟨"last", [], []⟩,
      .paused 0, .scheduled ⟨0, ⟨0, 1⟩⟩ ⟨"last", [], []⟩, .ran ⟨0, ⟨0, 1⟩⟩ ⟨"last", [], []⟩] ∧
    ((start startedEngine "gc").after secondMoves).reference? ⟨0, 1⟩ =
      some ⟨2, .phantom, some ⟨0, 1⟩, .active, some 0, 0, 1⟩ ∧
    (((start startedEngine "gc").after secondMoves).move (.step 1)).reference? ⟨0, 1⟩ =
      some ⟨2, .phantom, none, .pending, some 0, 0, 2⟩ ∧
    ((start startedEngine "gc").after secondMoves).DoneWithFinalizers
    ((start startedEngine "gc").history secondMoves) (.step 1) ⟨0, ⟨0, 1⟩⟩ := by
  have hbefore : ((start startedEngine "gc").after secondMoves).reference? ⟨0, 1⟩ =
      some ⟨2, .phantom, some ⟨0, 1⟩, .active, some 0, 0, 1⟩ := by decide +kernel
  have hafter : (((start startedEngine "gc").after secondMoves).move (.step 1)).reference? ⟨0, 1⟩ =
      some ⟨2, .phantom, none, .pending, some 0, 0, 2⟩ := by decide +kernel
  have hpaused : .paused 0 ∈ ((start startedEngine "gc").after secondMoves).deeds (.step 1) := by
    decide +kernel
  have hphantoms := deliversPhantoms_after startedEngine "gc" secondMoves
  obtain ⟨x, reason, hcollects⟩ := hphantoms.collection _ _ hpaused
  obtain ⟨y, hy, hreference⟩ := Option.bind_eq_some_iff.mp hbefore
  cases hcollects.engine.symm.trans hy
  refine ⟨by decide +kernel, hbefore, hafter, ?_⟩
  exact hphantoms.finalized _ _ _ _ hcollects 1 _ _ _ hreference rfl rfl rfl hafter rfl

end Finalized

end World

end ManagedHeap
