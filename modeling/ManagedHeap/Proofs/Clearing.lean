import ManagedHeap.Proofs.Delivery

/-!
# What a pause clears

**Input.**  A heap of a run, the settings and the reason of a collection, and what happens after it.

**Algorithm.**  A pause looks at every registered reference once.  It clears a reference by the
marks at one of two moments: soft and weak ones when roots and the soft references that the policy
keeps have been followed, phantom ones when finalizers have been followed too.  Whoever else takes a
reference out of the stage `active` has cleared it before.

**Results.**  A reference that is not active has no object (`Act.orderly`).  Exactly the references
to objects that are not held are cleared, and counted (`Heap.clearsExactly`); what nothing held
before a pause is never given out again by a reference that was there
(`World.clearsReferences_after`).
-/

namespace ManagedHeap

variable {kind : ReferenceKind}

open Asset Deed

/-- A reference that a pause has cleared; the list of pending references has a handle of it. -/
def Reference.pended (r : Reference) : Reference :=
  { r with stage := .pending, referent := none, handles := r.handles + 1 }

/-- Whether references are registered once, and those that are not active have no object. -/
structure Heap.Orderly (x : Heap Finalizer) : Prop where
  nodup : x.registered.Nodup
  bound : ∀ i ∈ x.registered, i < x.references.size
  cleared : ∀ (i : Nat) (r : Reference), x.references[i]? = some r → r.stage ≠ .active →
    r.referent = none

/-- Whether the references of all heaps are in order. -/
def Core.Orderly (c : Core) : Prop :=
  ∀ (e : Nat) (x : Heap Finalizer), c.heaps[e]? = some x → x.Orderly

namespace Heap

variable {x x' : Heap Finalizer}

section Registered

theorem size_makePending (refs : Array Reference) (positions : List Nat) :
    (makePending refs positions).size = refs.size := by
  unfold makePending
  induction positions generalizing refs with
  | nil => rfl
  | cons i positions ih => rw [List.foldl_cons, ih, Array.size_modify]

theorem map_tracked_sublist : (x.tracked.map Prod.fst).Sublist x.registered := by
  unfold tracked
  induction x.registered with
  | nil => exact .slnil
  | cons i rest ih =>
    rw [List.filterMap_cons]
    cases x.references[i]? with
    | none => exact ih.cons i
    | some r =>
      dsimp only
      cases r.isTracked with
      | false => exact ih.cons i
      | true => exact ih.cons_cons i

end Registered

namespace Orderly

theorem empty (key capacity : Nat) : (Heap.empty key capacity).Orderly where
  nodup := List.nodup_nil
  bound i hi := by cases hi
  cleared i r hr := by simp [Heap.empty] at hr

theorem of_references (h : x.Orderly) (hr : x'.references = x.references)
    (hg : x'.registered = x.registered) : x'.Orderly where
  nodup := by rw [hg]; exact h.nodup
  bound := by rw [hr, hg]; exact h.bound
  cleared := by rw [hr]; exact h.cleared

theorem updateReference (h : x.Orderly) (hg : ∀ r, x.references[j]? = some r →
      (r.stage ≠ .active → r.referent = none) → (g r).stage ≠ .active → (g r).referent = none) :
    (x.updateReference j g).Orderly where
  nodup := h.nodup
  bound i hi := by
    unfold Heap.updateReference
    rw [Array.size_modify]
    exact h.bound i hi
  cleared i r hr hs := by
    unfold Heap.updateReference at hr
    rw [Array.getElem?_modify] at hr
    split at hr
    · next hij =>
        subst hij
        obtain ⟨r₀, hr₀, rfl⟩ := Option.map_eq_some_iff.mp hr
        exact hg r₀ hr₀ (h.cleared j r₀ hr₀) hs
    · exact h.cleared i r hr hs

theorem newReference (h : x.Orderly) {id i : Nat} {r : Root} {queue : Option Nat}
    (hn : x.newReference id kind r queue = .ok (i, x')) : x'.Orderly := by
  unfold Heap.newReference at hn
  split at hn <;> cases hn
  constructor
  case nodup =>
    refine h.nodup.append (List.nodup_singleton _) ?_
    rw [List.disjoint_singleton]
    exact fun hmem => Nat.lt_irrefl _ (h.bound _ hmem)
  case bound =>
    intro j hj
    rw [Array.size_push]
    rcases List.mem_append.mp hj with hj | hj
    · exact Nat.lt_succ_of_lt (h.bound j hj)
    · rw [List.mem_singleton.mp hj]
      exact Nat.lt_succ_self _
  case cleared =>
    intro j r' hr' hs
    dsimp only at hr'
    rw [Array.getElem?_push] at hr'
    split at hr'
    · cases hr'
      exact absurd rfl hs
    · exact h.cleared j r' hr' hs

theorem pause (h : x.Orderly) (settings : Settings) (reason : Reason) :
    (x.pause settings reason).heap.Orderly where
  nodup := h.nodup.sublist map_tracked_sublist
  bound i hi := by
    rw [references_pause, size_makePending]
    exact h.bound i (map_tracked_sublist.subset hi)
  cleared i r' hr' hs := by
    rw [references_pause, getElem?_makePending] at hr'
    obtain ⟨r, hr, rfl⟩ := Option.map_eq_some_iff.mp hr'
    unfold afterPending Reference.makePending at hs ⊢
    split at hs
    · next hzero =>
        rw [if_pos hzero]
        exact h.cleared i r hr hs
    · next hpos =>
        rw [if_neg hpos]
        split at hs
        · next hactive => rw [if_pos hactive]
        · next hactive =>
            rw [if_neg hactive]
            exact h.cleared i r hr hactive

end Orderly

end Heap

namespace Act

variable {c c' : Core} {p p' : Multiset Asset} {deeds : List Deed}

section Orderly

/-- **A reference that is not active has no object.** -/
theorem orderly (h : Act L c p deeds c' p') (ho : c.Orderly) : c'.Orderly := by
  have onSpace : ∀ {e f}, (∀ x, (f x).references = x.references ∧ (f x).registered = x.registered) →
      (c.modifyHeap e f).Orderly :=
    fun hf => Core.forall_heaps_modifyHeap ho fun x _ hx => hx.of_references (hf x).1 (hf x).2
  have onReference : ∀ {k g},
      (∀ r, c.reference? k = some r → (r.stage ≠ .active → r.referent = none) →
        (g r).stage ≠ .active → (g r).referent = none) →
      (c.modifyHeap k.heap (·.updateReference k.position g)).Orderly := fun hg =>
    Core.forall_heaps_modifyHeap ho fun x hx hx' => hx'.updateReference fun r hr =>
      hg r (Option.bind_eq_some_iff.mpr ⟨x, hx, hr⟩)
  cases h with
  | transfer heaps =>
    unfold Core.Orderly
    rwa [heaps]
  | makeHeap capacity => exact Core.forall_heaps_addHeap ho (.empty _ _)
  | makeLine | dequeue | bind | unbind | run | discard => exact ho
  | fetch | clone | drop | finish | write | store => exact onSpace fun _ => ⟨rfl, rfl⟩
  | refer hx hn =>
    refine Core.forall_heaps_modifyHeap ho fun y hy hy' => ?_
    rw [hx] at hy
    cases hy
    exact hy'.newReference hn
  | adjust k g hg =>
    refine onReference fun r _ hcleared hs => ?_
    rw [(hg r).stage] at hs
    exact (hg r).referent.elim (fun hsame => hsame.trans (hcleared hs)) fun hnone => hnone
  | settle hr hs =>
    refine onReference fun r' hr' hcleared _ => hcleared ?_
    rw [hr] at hr'
    cases hr'
    rcases hs with ⟨hs, -⟩ | hs <;> simp [hs]
  | claim hr _ hs hc =>
    refine onReference fun r' hr' hcleared _ => ?_
    rw [hr] at hr'
    cases hr'
    rcases hs with hs | hs
    · exact hc hs
    · exact hcleared (by simp [hs])
  | retain | release | discharge => exact onReference fun _ _ hcleared => hcleared
  | enqueue q k =>
    exact onReference fun _ _ hcleared => hcleared
  | pause hx settings reason =>
    exact Core.forall_heaps_modifyHeap ho fun x _ hx => hx.pause settings reason

end Orderly

end Act

namespace Heap

variable {h : Heap Finalizer} {settings : Settings} {reason : Reason} {i : Nat} {r r' : Reference}
  {id : ObjectId}

section Cleared

/-- Whether a pause takes the object of a tracked reference away from it. -/
def Clears (h : Heap Finalizer) (settings : Settings) (reason : Reason) (r : Reference)
    (id : ObjectId) : Prop :=
  match r.kind with
  | .soft => (h.softPolicy settings reason).gives r = true ∧ ¬h.Held settings reason id
  | .weak => ¬h.Held settings reason id
  | .phantom => ¬h.Survives settings reason id

theorem mem_tracked_of_isTracked (hk : h.Tracks) (hr : h.references[i]? = some r)
    (ht : r.isTracked = true) : (i, r) ∈ h.tracked := by
  obtain ⟨id, hid⟩ := Option.isSome_iff_exists.mp (Reference.isTracked_iff.mp ht).2.2
  exact mem_tracked.mpr ⟨(hk i r id hr ht hid).1, hr, ht⟩

theorem eq_of_mem_tracked (hr : (i, r) ∈ h.tracked) (hr' : (i, r') ∈ h.tracked) : r = r' :=
  Option.some.inj ((mem_tracked.mp hr).2.1.symm.trans (mem_tracked.mp hr').2.1)

theorem ofKind_sublist (kind : ReferenceKind) : (ofKind kind h.tracked).Sublist h.tracked :=
  List.filter_sublist

theorem softPhase_sublist : (h.softPhase settings reason).2.Sublist (ofKind .soft h.tracked) :=
  retainSoft_sublist _ _ _

/-- Positions of the references of a kind that a pause makes pending. -/
def lostOf (h : Heap Finalizer) (settings : Settings) (reason : Reason) : ReferenceKind → List Nat
  | .soft => lost (h.softPhase settings reason).1.space (h.softPhase settings reason).2
  | .weak => lost (h.softPhase settings reason).1.space (ofKind .weak h.tracked)
  | .phantom => lost (h.lastTrace settings reason).space (ofKind .phantom h.tracked)

theorem pending_eq_lostOf : (h.pause settings reason).pending = h.lostOf settings reason .soft ++
      h.lostOf settings reason .weak ++ h.lostOf settings reason .phantom := rfl

theorem mem_pending_iff_lostOf : i ∈ (h.pause settings reason).pending ↔
    ∃ kind, i ∈ h.lostOf settings reason kind := by
  rw [pending_eq_lostOf, List.mem_append, List.mem_append]
  constructor
  · rintro ((hi | hi) | hi)
    · exact ⟨_, hi⟩
    · exact ⟨_, hi⟩
    · exact ⟨_, hi⟩
  · rintro ⟨kind, hi⟩
    cases kind with
    | soft => exact .inl (.inl hi)
    | weak => exact .inl (.inr hi)
    | phantom => exact .inr hi

theorem lost_of_sublist (ho : h.Orderly) (hsub : refs.Sublist (ofKind kind h.tracked)) :
    (lost s refs).Nodup ∧ ∀ i ∈ lost s refs, ∃ r, (i, r) ∈ h.tracked ∧ r.kind = kind := by
  constructor
  · have htracked : (refs.filter fun r => isLost s r.2).Sublist h.tracked :=
      (List.filter_sublist.trans hsub).trans (ofKind_sublist kind)
    exact ho.nodup.sublist ((htracked.map Prod.fst).trans map_tracked_sublist)
  · intro i hi
    obtain ⟨r, -, hr, -⟩ := mem_lost.mp hi
    exact ⟨r, mem_ofKind.mp (hsub.subset hr)⟩

theorem lostOf_spec (ho : h.Orderly) (kind : ReferenceKind) :
    (h.lostOf settings reason kind).Nodup ∧
    ∀ i ∈ h.lostOf settings reason kind, ∃ r, (i, r) ∈ h.tracked ∧ r.kind = kind := by
  cases kind with
  | soft => exact lost_of_sublist ho softPhase_sublist
  | weak | phantom => exact lost_of_sublist ho (.refl _)

theorem disjoint_lostOf (ho : h.Orderly) (hne : kind ≠ kind') :
    (h.lostOf settings reason kind).Disjoint (h.lostOf settings reason kind') := by
  intro i hi hi'
  obtain ⟨r, hr, hkind⟩ := (lostOf_spec ho kind).2 i hi
  obtain ⟨r', hr', hkind'⟩ := (lostOf_spec ho kind').2 i hi'
  obtain rfl := eq_of_mem_tracked hr hr'
  exact hne (hkind.symm.trans hkind')

theorem nodup_pending (ho : h.Orderly) : (h.pause settings reason).pending.Nodup := by
  rw [pending_eq_lostOf]
  refine ((lostOf_spec ho _).1.append (lostOf_spec ho _).1 (disjoint_lostOf ho (by decide))).append
    (lostOf_spec ho _).1 ?_
  rw [List.disjoint_append_left]
  exact ⟨disjoint_lostOf ho (by decide), disjoint_lostOf ho (by decide)⟩

theorem mem_lost_iff (hsub : refs.Sublist h.tracked) (hr : (i, r) ∈ h.tracked)
    (hid : r.referent = some id) : i ∈ lost s refs ↔ (i, r) ∈ refs ∧ s.isMarked id = false := by
  rw [mem_lost]
  constructor
  · rintro ⟨r', id', hr', hid', hm⟩
    obtain rfl := eq_of_mem_tracked hr (hsub.subset hr')
    rw [hid] at hid'
    cases hid'
    exact ⟨hr', hm⟩
  · exact fun ⟨hr', hm⟩ => ⟨r, id, hr', hid, hm⟩

theorem mem_softPhase_iff (ht : h.Tidy) (hr : (i, r) ∈ h.tracked) (hid : r.referent = some id)
    (hlive : h.space.contains id = true) (hheld : ¬h.Held settings reason id) :
    (i, r) ∈ (h.softPhase settings reason).2 ↔
    r.kind = .soft ∧ (h.softPolicy settings reason).gives r = true := by
  have hunmarked : (h.softPhase settings reason).1.space.isMarked id = false := by
    rw [Bool.eq_false_iff]
    exact fun hm => hheld ((isMarked_softPhase_iff settings reason ht.unmarked id).mp hm)
  have hgiven : r.kind = .soft → (i, r) ∈ (h.softPhase settings reason).2 ∧
      (h.softPolicy settings reason).gives r = true := fun hsoft =>
    mem_retainSoft_of_unmarked (h.softPolicy settings reason) _ (Trace.work_markRoots h.space)
      (Trace.closed_markRoots ht.unmarked) (mem_ofKind.mpr ⟨hr, hsoft⟩) hid
      (by rw [Space.contains_of_plain_eq (Trace.plain_markRoots h.space)]; exact hlive) hunmarked
  constructor
  · intro hq
    have hsoft := (mem_ofKind.mp (softPhase_sublist.subset hq)).2
    exact ⟨hsoft, (hgiven hsoft).2⟩
  · exact fun hsoft => (hgiven hsoft.1).1

/-- **What a pause makes pending.** -/
theorem mem_pending_iff (ht : h.Tidy) (hk : h.Tracks) (hr : h.references[i]? = some r)
    (htracked : r.isTracked = true) (hid : r.referent = some id) :
    i ∈ (h.pause settings reason).pending ↔ h.Clears settings reason r id := by
  have hmem := mem_tracked_of_isTracked hk hr htracked
  have hlive := (hk i r id hr htracked hid).2
  have hheld : (h.softPhase settings reason).1.space.isMarked id = false ↔
      ¬h.Held settings reason id := by
    rw [← isMarked_softPhase_iff settings reason ht.unmarked, Bool.not_eq_true]
  have hsurvives : (h.lastTrace settings reason).space.isMarked id = false ↔
      ¬h.Survives settings reason id := by
    rw [← isMarked_lastTrace_iff settings reason ht.unmarked ht.mirrored, Bool.not_eq_true]
  have hsoft : i ∈ h.lostOf settings reason .soft ↔
      (r.kind = .soft ∧ (h.softPolicy settings reason).gives r = true) ∧
      ¬h.Held settings reason id := by
    rw [lostOf, mem_lost_iff (softPhase_sublist.trans (ofKind_sublist .soft)) hmem hid, hheld]
    exact and_congr_left fun hnot => mem_softPhase_iff ht hmem hid hlive hnot
  have hweak : i ∈ h.lostOf settings reason .weak ↔
      r.kind = .weak ∧ ¬h.Held settings reason id := by
    rw [lostOf, mem_lost_iff (ofKind_sublist .weak) hmem hid, hheld, mem_ofKind, and_iff_right hmem]
  have hphantom : i ∈ h.lostOf settings reason .phantom ↔
      r.kind = .phantom ∧ ¬h.Survives settings reason id := by
    rw [lostOf, mem_lost_iff (ofKind_sublist .phantom) hmem hid, hsurvives, mem_ofKind,
      and_iff_right hmem]
  rw [pending_eq_lostOf, List.mem_append, List.mem_append, hsoft, hweak, hphantom]
  unfold Clears
  cases r.kind <;> simp

theorem getElem?_pause_of_not_mem (hi : i ∉ (h.pause settings reason).pending) :
    (h.pause settings reason).heap.references[i]? = h.references[i]? := by
  rw [references_pause, getElem?_makePending, List.count_eq_zero_of_not_mem hi]
  cases h.references[i]? with
  | none => rfl
  | some r => simp [afterPending]

theorem getElem?_pause_of_mem (ho : h.Orderly) (hr : h.references[i]? = some r)
    (hi : i ∈ (h.pause settings reason).pending) :
    (h.pause settings reason).heap.references[i]? = some r.pended := by
  obtain ⟨r', hmem⟩ := exists_tracked_of_mem_pending settings reason hi
  obtain ⟨-, hr', htracked⟩ := mem_tracked.mp hmem
  rw [hr] at hr'
  cases hr'
  have hactive : r.stage = .active := (Reference.isTracked_iff.mp htracked).2.1
  rw [references_pause, getElem?_makePending, List.count_eq_one_of_mem (nodup_pending ho) hi, hr]
  simp [afterPending, Reference.makePending, Reference.pended, hactive]

theorem getElem?_pause_eq_pended_iff (ho : h.Orderly)
    (hr : h.references[i]? = some r) (htracked : r.isTracked = true) :
    (h.pause settings reason).heap.references[i]? = some r.pended ↔
    i ∈ (h.pause settings reason).pending := by
  refine ⟨fun hpended => ?_, getElem?_pause_of_mem ho hr⟩
  by_contra hi
  rw [getElem?_pause_of_not_mem hi, hr] at hpended
  have hstage := congrArg Reference.stage (Option.some.inj hpended)
  rw [(Reference.isTracked_iff.mp htracked).2.1] at hstage
  cases hstage

theorem exists_reference_pause (settings : Settings)
    (reason : Reason) (hr : h.references[i]? = some r) :
    ∃ r', (h.pause settings reason).heap.references[i]? = some r' ∧ r'.kind = r.kind := by
  have hprogress : h.Progresses 0 (h.pause settings reason).heap := .pause settings reason
  obtain ⟨r', hr', hp⟩ := hprogress.forward i r hr
  exact ⟨r', hr', hp.kind⟩

/-- **What a soft or weak reference still names after a pause was held.** -/
theorem held_of_referent_pause (ht : h.Tidy) (hk : h.Tracks) (ho : h.Orderly)
    (hr : h.references[i]? = some r) (hpos : 0 < r.handles) (hkind : r.kind ≠ .phantom)
    (hr' : (h.pause settings reason).heap.references[i]? = some r') (hid : r'.referent = some id) :
    h.Held settings reason id := by
  have hi : i ∉ (h.pause settings reason).pending := by
    intro hi
    rw [getElem?_pause_of_mem ho hr hi] at hr'
    cases hr'
    cases hid
  rw [getElem?_pause_of_not_mem hi, hr] at hr'
  cases hr'
  have hactive : r.stage = .active := by
    by_contra hs
    rw [ho.cleared i r hr hs] at hid
    cases hid
  have htracked : r.isTracked = true :=
    Reference.isTracked_iff.mpr ⟨hpos, hactive, by rw [hid]; rfl⟩
  rw [mem_pending_iff ht hk hr htracked hid] at hi
  by_contra hheld
  refine hi ?_
  unfold Clears
  cases hsoft : r.kind with
  | soft =>
    refine ⟨?_, hheld⟩
    by_contra hgives
    -- an object that the policy keeps is held
    refine hheld (.base (.inr ⟨i, r, mem_tracked_of_isTracked hk hr htracked, hsoft, hid, ?_⟩) ?_)
    · exact Bool.eq_false_iff.mpr hgives
    · exact (hk i r id hr htracked hid).2
  | weak => exact hheld
  | phantom => exact absurd hsoft hkind

theorem exists_of_getReferent {root : Root} (hget : (h.getReferent i).1 = some root) :
    ∃ r, h.references[i]? = some r ∧ r.kind ≠ .phantom ∧ r.referent = some root.object := by
  unfold getReferent at hget
  split at hget
  · cases hget
  · next r hr =>
      split at hget
      · cases hget
      · cases hget
      · next hid hkind =>
          split at hget <;> cases hget
          exact ⟨r, hr, hkind, hid⟩

end Cleared

section Exactness

/-- Positions of the references of a kind that a pause clears. -/
def clearedOf (h : Heap Finalizer) (settings : Settings) (reason : Reason) (kind : ReferenceKind) :
    Set Nat :=
  { i | ∃ r, h.references[i]? = some r ∧ r.isTracked = true ∧ r.kind = kind ∧
    (h.pause settings reason).heap.references[i]? = some r.pended }

/-- What a pause does to references, what it counts, and what references give out afterwards. -/
structure ClearsExactly (h : Heap Finalizer) (settings : Settings) (reason : Reason) : Prop where
  /-- Of the references that are held, active and not cleared, a weak one loses its object if this
  is not held. -/
  weak : ∀ (i : Nat) (r : Reference) (id : ObjectId), h.references[i]? = some r →
    r.isTracked = true → r.kind = .weak → r.referent = some id →
    ((h.pause settings reason).heap.references[i]? = some r.pended ↔ ¬h.Held settings reason id)
  /-- A soft one loses it if the policy gives it up, too. -/
  soft : ∀ (i : Nat) (r : Reference) (id : ObjectId), h.references[i]? = some r →
    r.isTracked = true → r.kind = .soft → r.referent = some id →
    ((h.pause settings reason).heap.references[i]? = some r.pended ↔
      (h.softPolicy settings reason).gives r = true ∧ ¬h.Held settings reason id)
  /-- A phantom one loses it if this does not survive. -/
  phantom : ∀ (i : Nat) (r : Reference) (id : ObjectId), h.references[i]? = some r →
    r.isTracked = true → r.kind = .phantom → r.referent = some id →
    ((h.pause settings reason).heap.references[i]? = some r.pended ↔ ¬h.Survives settings reason id)
  /-- All others stay as they are. -/
  others : ∀ i : Nat, (∀ kind, i ∉ h.clearedOf settings reason kind) →
    (h.pause settings reason).heap.references[i]? = h.references[i]?
  softCleared : (h.pause settings reason).softCleared = (h.clearedOf settings reason .soft).ncard
  weakCleared : (h.pause settings reason).weakCleared = (h.clearedOf settings reason .weak).ncard
  phantomCleared :
    (h.pause settings reason).phantomCleared = (h.clearedOf settings reason .phantom).ncard
  /-- What a reference that somebody has gives out was held. -/
  obtained : ∀ (i : Nat) (r : Reference) (root : Root), h.references[i]? = some r → 0 < r.handles →
    ((h.pause settings reason).heap.getReferent i).1 = some root →
    h.Held settings reason root.object
  /-- The object of a job was not. -/
  jobs : ∀ j ∈ (h.pause settings reason).jobs, j.object.heap = h.key ∧
    ¬h.Held settings reason j.object.object

/-- The references of a kind that are cleared are those of that kind that are made pending. -/
theorem mem_clearedOf_iff (ho : h.Orderly) :
    i ∈ h.clearedOf settings reason kind ↔ i ∈ h.lostOf settings reason kind := by
  constructor
  · rintro ⟨r, hr, htracked, hkind, hpended⟩
    have hi := (getElem?_pause_eq_pended_iff ho hr htracked).mp hpended
    obtain ⟨kind', hi⟩ := mem_pending_iff_lostOf.mp hi
    obtain ⟨r', hr', hkind'⟩ := (lostOf_spec ho kind').2 i hi
    cases hr.symm.trans (mem_tracked.mp hr').2.1
    rwa [← hkind, hkind']
  · intro hi
    obtain ⟨r, hmem, hkind⟩ := (lostOf_spec ho kind).2 i hi
    obtain ⟨-, hr, htracked⟩ := mem_tracked.mp hmem
    exact ⟨r, hr, htracked, hkind,
      getElem?_pause_of_mem ho hr (mem_pending_iff_lostOf.mpr ⟨kind, hi⟩)⟩

theorem length_lostOf (ho : h.Orderly) (kind : ReferenceKind) :
    (h.lostOf settings reason kind).length = (h.clearedOf settings reason kind).ncard := by
  have hset : h.clearedOf settings reason kind = ↑(h.lostOf settings reason kind).toFinset := by
    ext i
    rw [mem_clearedOf_iff ho, Finset.mem_coe, List.mem_toFinset]
  rw [hset, Set.ncard_coe_finset, List.toFinset_card_of_nodup (lostOf_spec ho kind).1]

/-- **A pause clears exactly the references whose objects are not held any more.** -/
theorem clearsExactly (ht : h.Tidy) (hk : h.Tracks) (ho : h.Orderly) (settings : Settings)
    (reason : Reason) : h.ClearsExactly settings reason := by
  have hpended : ∀ i r id, h.references[i]? = some r → r.isTracked = true →
      r.referent = some id → ((h.pause settings reason).heap.references[i]? = some r.pended ↔
        h.Clears settings reason r id) := fun i r id hr htracked hid =>
      (getElem?_pause_eq_pended_iff ho hr htracked).trans (mem_pending_iff ht hk hr htracked hid)
  constructor
  case weak =>
    intro i r id hr htracked hkind hid
    rw [hpended i r id hr htracked hid, Clears, hkind]
  case soft =>
    intro i r id hr htracked hkind hid
    rw [hpended i r id hr htracked hid, Clears, hkind]
  case phantom =>
    intro i r id hr htracked hkind hid
    rw [hpended i r id hr htracked hid, Clears, hkind]
  case others =>
    intro i hi
    refine getElem?_pause_of_not_mem fun hpending => ?_
    obtain ⟨kind, hlost⟩ := mem_pending_iff_lostOf.mp hpending
    exact hi kind ((mem_clearedOf_iff ho).mpr hlost)
  case softCleared => exact length_lostOf ho .soft
  case weakCleared => exact length_lostOf ho .weak
  case phantomCleared => exact length_lostOf ho .phantom
  case obtained =>
    intro i r root hr hpos hget
    obtain ⟨r', hr', hkind, hid⟩ := exists_of_getReferent hget
    have hsame : r'.kind = r.kind := by
      obtain ⟨r₁, hr₁, hsame⟩ := exists_reference_pause settings reason hr
      rw [hr'] at hr₁
      cases hr₁
      exact hsame
    exact held_of_referent_pause ht hk ho hr hpos (hsame ▸ hkind) hr' hid
  case jobs =>
    intro j hj
    obtain ⟨hheap, hscheduled, -⟩ := (mem_jobs_pause settings reason ht.unmarked ht.mirrored).mp hj
    exact ⟨hheap, hscheduled.2.1⟩

end Exactness

end Heap

namespace World

variable {w : World} {t e : Nat} {m : Move} {x : Runtime} {reason : Reason}

section Collections

def pauseTasks (e cycle : Nat) (reason : Reason) (threads : Nat) (p : PauseOutcome Finalizer) :
    List Task :=
  [.registry e .releaseWorld, .dropFinalizers (p.discarded.map Prod.snd), .setPhase e .enqueuing,
    .enqueuePending e p.pending p.jobs (pauseReport cycle reason threads p)]

/-- Whether a move collects the heap of an engine: a thread that has stopped the world pauses, and
goes on with what the pause leaves to be done. -/
structure Collects (w : World) (m : Move) (e : Nat) (x : Runtime) (reason : Reason) : Prop where
  paused : .paused e ∈ w.deeds m
  engine : w.engines[e]? = some x
  heap : ∃ x', (w.move m).engines[e]? = some x' ∧ x'.heap = (x.heap.pause x.settings reason).heap
  tasks : ∃ t cycle rest threads, m = .step t ∧
    w.stackOf t = some ⟨.pause e cycle reason :: rest, .count threads⟩ ∧ (w.move m).stackOf t =
      some ⟨pauseTasks e cycle reason threads (x.heap.pause x.settings reason) ++ rest,
      .count threads⟩

theorem threads_log (event : Event) : (w.log e event).threads = w.threads := by
  unfold log
  split <;> rfl

/-- A thread whose pause takes place had stopped the world, and goes on with the outcome. -/
theorem stackOf_pause {cycle : Nat} {rest : List Task} {reply : Reply}
    (hs : w.stackOf t = some ⟨.pause e cycle reason :: rest, reply⟩) (hx : w.engines[e]? = some x)
    (hd : .paused e ∈ w.deeds (.step t)) :
    ∃ threads, reply = .count threads ∧ (w.move (.step t)).stackOf t =
      some ⟨pauseTasks e cycle reason threads (x.heap.pause x.settings reason) ++ rest, reply⟩ := by
  have htake := stackOf_take hs
  obtain ⟨hstack, hdeeds⟩ := move_of_stackOf hs rfl
  rw [hstack]
  rw [hdeeds] at hd
  simp only [deedsOf, pauseDeeds, replyOf_of_stackOf htake] at hd
  have hengine : (w.take t rest).engines[e]? = some x := hx
  cases reply with
  | count threads =>
    refine ⟨threads, rfl, ?_⟩
    simp only [pauseWorld, replyOf_of_stackOf htake, hengine]
    refine stackOf_push ((stackOf_of_threads ?_).trans htake) _
    exact threads_log _
  | _ => cases hd

theorem exists_collects (h : .paused e ∈ w.deeds m) : ∃ x reason, w.Collects m e x reason := by
  obtain ⟨t, e', cycle, reason, x, rfl, hnext, hx, hheap, hdeeds⟩ :=
    exists_pause_of_mem_deeds (d := .paused e) trivial h
  obtain rfl : e = e' := by
    rw [hdeeds] at h
    simpa using h
  obtain ⟨y, hy, hhead⟩ := Option.bind_eq_some_iff.mp hnext
  obtain ⟨rest, htasks⟩ := List.head?_eq_some_iff.mp hhead
  have hs : w.stackOf t = some ⟨.pause e cycle reason :: rest, y.reply⟩ := by
    rw [stackOf, hy, Option.map_some, Thread.stack, htasks]
  obtain ⟨threads, hreply, hstack⟩ := stackOf_pause hs hx h
  rw [hreply] at hs hstack
  exact ⟨x, reason, h, hx, exists_engine_of_heap hheap, t, cycle, rest, threads, rfl, hs, hstack⟩

end Collections

/-- How collections clear references in a world, and what happens after. -/
structure ClearsReferences (w : World) : Prop where
  collection : ∀ m e, .paused e ∈ w.deeds m → ∃ x reason, w.Collects m e x reason
  exactly : ∀ (e : Nat) (x : Runtime), w.engines[e]? = some x →
    ∀ settings reason, x.heap.ClearsExactly settings reason
  /-- Whatever happens after a collection, a reference that somebody had before gives out only what
  was held. -/
  obtained : ∀ m e x reason, w.Collects m e x reason →
    ∀ (more : List Move) (y : Runtime) (i : Nat) (r : Reference) (root : Root),
    ((w.move m).after more).engines[e]? = some y → x.heap.references[i]? = some r → 0 < r.handles →
    (y.heap.getReferent i).1 = some root → x.heap.Held x.settings reason root.object

section Clearing

variable (s : EngineSpec) (label : String) (moves : List Move)

theorem orderly_after : ((start s label).after moves).core.Orderly :=
  invariant_after (fun _ h => h.orderly)
    (fun e x hx => by simp [Core.heaps, core] at hx) s label moves

theorem referent_of_after (hreg : w.core.Regular) {more : List Move} {y : Runtime}
    {i : Nat} {r r' : Reference} {id : ObjectId} (hx : w.engines[e]? = some x)
    (hr : x.heap.references[i]? = some r) (hy : (w.after more).engines[e]? = some y)
    (hr' : y.heap.references[i]? = some r') (hid : r'.referent = some id) :
    r.kind = r'.kind ∧ r.referent = some id := by
  have hbefore : w.core.reference? ⟨e, i⟩ = some r :=
    Option.bind_eq_some_iff.mpr ⟨x.heap, heaps_core hx, hr⟩
  have hafter : (w.after more).core.reference? ⟨e, i⟩ = some r' :=
    Option.bind_eq_some_iff.mpr ⟨y.heap, heaps_core hy, hr'⟩
  have hext := (acts_moves hreg more).progress.1
  obtain ⟨r₁, hr₁, hp⟩ := hext.references _ r hbefore
  rw [hafter] at hr₁
  cases hr₁
  refine ⟨hp.kind.symm, ?_⟩
  rcases hext.fades _ r r' hbefore hafter with hsame | hnone
  · rw [← hsame, hid]
  · rw [hnone] at hid
    cases hid

/-- **Soft and weak references are cleared exactly.**  In any heap of any run, a pause clears the
weak references to objects that neither roots nor retained soft references reach, of the soft
references to such objects those that the policy gives up, and counts them; all others stay.  No
reference of before the pause ever gives out an object that was not held, be it on its way to a
finalizer or kept by one. -/
theorem clearsReferences_after : ((start s label).after moves).ClearsReferences := by
  have hc := coherent_after s label moves
  have ho := orderly_after s label moves
  have hreg := regular_after s label moves
  generalize (start s label).after moves = w at hc ho hreg
  have hheap : ∀ {e : Nat} {x : Runtime}, w.engines[e]? = some x →
      x.heap.Tidy ∧ x.heap.Tracks ∧ x.heap.Orderly := fun hx =>
      ⟨(hc.tidy _ _ (heaps_core hx)).2, hc.tracking _ _ (heaps_core hx), ho _ _ (heaps_core hx)⟩
  constructor
  case collection => exact fun m e h => exists_collects h
  case exactly =>
    intro e x hx settings reason
    obtain ⟨htidy, htracks, horderly⟩ := hheap hx
    exact Heap.clearsExactly htidy htracks horderly settings reason
  case obtained =>
    intro m e x reason hcollects more y i r root hy hr hpos hget
    obtain ⟨htidy, htracks, horderly⟩ := hheap hcollects.engine
    obtain ⟨x', hx', hafter⟩ := hcollects.heap
    obtain ⟨r₂, hr₂, hkind, hid⟩ := Heap.exists_of_getReferent hget
    obtain ⟨r₁, hr₁, hsame₁⟩ := Heap.exists_reference_pause x.settings reason hr
    have hreg' : (w.move m).core.Regular := (acts_move hreg m).progress.2 hreg
    obtain ⟨hsame, hid₁⟩ := referent_of_after hreg' hx' (by rw [hafter]; exact hr₁) hy hr₂ hid
    refine Heap.held_of_referent_pause htidy htracks horderly hr hpos ?_ hr₁ hid₁
    rw [← hsame₁, hsame]
    exact hkind

/-- A thread makes an object with a finalizer, a weak and a phantom reference to it, and another
object with a soft reference to it; then it drops its roots. -/
def watchedMoves : List Move :=
  .call "main" ::
    (ordered 0 (.allocate "gc"
        { size := 16, finalizer := some ⟨"last", [], []⟩ } (some "object")) 8 ++
      ordered 1 (.newReference "gc" "weak" "object" (some .weak) none) 4 ++
      ordered 2 (.newReference "gc" "phantom" "object" (some .phantom) (some "queue")) 4 ++
      ordered 3 (.allocate "gc" { size := 16 } (some "cached")) 8 ++
      ordered 4 (.newReference "gc" "soft" "cached" (some .soft) none) 4 ++
      ordered 5 (.dropRoots ["object", "cached"]) 8)

/-- A weak reference is cleared before the finalizer of its object gets to run; a soft reference
still gives out its object, which was held. -/
theorem clearsReferences_watched :
    ∃ x weak, ((start startedEngine "gc").after watchedMoves).engines[0]? = some x ∧
      x.heap.references[0]? = some weak ∧ weak.isTracked = true ∧
      (x.heap.pause x.settings .explicit).heap.references[0]? = some weak.pended ∧
      (x.heap.pause x.settings .explicit).heap.space.contains ⟨0, 1⟩ = true ∧
      ¬x.heap.Held x.settings .explicit ⟨0, 1⟩ ∧ x.heap.Held x.settings .explicit ⟨1, 1⟩ := by
  have hvalues : (((start startedEngine "gc").after watchedMoves).engines[0]?).map (fun x =>
        (x.heap.references[0]?, x.heap.references[2]?, (x.heap.pause x.settings
        .explicit).heap.references[0]?, ((x.heap.pause x.settings .explicit).heap.getReferent 2).1,
        (x.heap.pause x.settings .explicit).heap.space.contains ⟨0, 1⟩)) = some (some ⟨1, .weak,
        some ⟨0, 1⟩, .active, none, 0, 1⟩, some ⟨3, .soft, some ⟨1, 1⟩, .active, none, 0, 1⟩,
        some ⟨1, .weak, none, .pending, none, 0, 2⟩, some ⟨0, ⟨1, 1⟩⟩, true) := by decide +kernel
  obtain ⟨x, hx, hvalues⟩ := Option.map_eq_some_iff.mp hvalues
  simp only [Prod.mk.injEq] at hvalues
  obtain ⟨hweak, hsoft, hpended, hget, hlive⟩ := hvalues
  have hclears :=
    (clearsReferences_after startedEngine "gc" watchedMoves).exactly 0 x hx x.settings .explicit
  refine ⟨x, _, hx, hweak, rfl, hpended, hlive, ?_, ?_⟩
  · exact (hclears.weak 0 _ ⟨0, 1⟩ hweak rfl rfl rfl).mp hpended
  · exact hclears.obtained 2 _ _ hsoft Nat.zero_lt_one hget

end Clearing

end World

end ManagedHeap
