import ManagedHeap.Proofs.Clearing

/-!
# Soft references are cleared together

**Input.**  A heap of a run, a policy, and the registered references in another order.

**Algorithm.**  A pause goes through the soft references in the order of registration and marks as
it goes, so what it finds marked when a reference has its turn depends on the order.  What is marked
when all had their turn does not, and only that decides what is cleared.

**Results.**
* `Heap.space_softTrace_reordered`, `Heap.softLost_reordered`: neither the marks nor the cleared
  references depend on the order; nor does what the whole pause leaves
  (`Heap.space_pause_reordered`, `Heap.references_pause_reordered`).
* `Heap.mem_lost_of_mem_softLost`: with a soft reference to an object, all soft and weak references
  to whatever reaches that object are cleared.
* `World.clearsTogether_after`: both in every heap of every run.
-/

namespace ManagedHeap

namespace Record

variable {φ : Type}

theorem eq_of_plain_eq {r r' : Record φ} (hp : r'.plain = r.plain)
    (hm : r'.header.marked = r.header.marked) : r' = r := by
  rcases r with ⟨⟨size, marked, finalizable, pending⟩, fields, finalizer, roots⟩
  rcases r' with ⟨⟨size', marked', finalizable', pending'⟩, fields', finalizer', roots'⟩
  simp only [plain, Header.unmark, Record.mk.injEq, Header.mk.injEq] at hp hm ⊢
  tauto

end Record

namespace Space

variable {φ : Type} {s s' : Space φ}

theorem slot_of_plain_eq (hp : s'.plain = s.plain) (i : Nat) :
    (s'.slots[i]?).map (fun slot => (slot.generation, slot.record.map Record.plain)) =
      (s.slots[i]?).map (fun slot => (slot.generation, slot.record.map Record.plain)) := by
  have hslots :=
    congrArg (fun s : Space φ => (s.slots[i]?).map fun slot => (slot.generation, slot.record)) hp
  simpa [plain, Array.getElem?_map, Function.comp_def] using hslots

theorem eq_of_plain_eq (hp : s'.plain = s.plain) (hm : ∀ id, s'.isMarked id = s.isMarked id) :
    s' = s := by
  have hslots : s'.slots = s.slots := by
    refine Array.ext_getElem? fun i => ?_
    have hslot := slot_of_plain_eq hp i
    cases h : s.slots[i]? with
    | none =>
      rw [h] at hslot
      simpa using hslot
    | some slot =>
      rw [h] at hslot
      obtain ⟨slot', h', heq⟩ := Option.map_eq_some_iff.mp hslot
      obtain ⟨hgen, hrecord⟩ := Prod.mk.inj heq
      have hmark := hm ⟨i, slot.generation⟩
      simp only [isMarked, get?, h, h', hgen, if_true] at hmark
      rcases slot with ⟨generation, record⟩
      rcases slot' with ⟨generation', record'⟩
      dsimp only at hgen hrecord hmark
      subst hgen
      rw [h']
      cases record with
      | none =>
        cases record' with
        | none => rfl
        | some r' => cases hrecord
      | some r =>
        cases record' with
        | none => cases hrecord
        | some r' => rw [Record.eq_of_plain_eq (Option.some.inj hrecord) hmark]
  have hrest := congrArg (fun s : Space φ => (s.free, s.usedBytes, s.liveObjects, s.capacity)) hp
  rcases s with ⟨slots, free, usedBytes, liveObjects, capacity⟩
  rcases s' with ⟨slots', free', usedBytes', liveObjects', capacity'⟩
  simp only [plain, Prod.mk.injEq] at hrest hslots
  obtain ⟨rfl, rfl, rfl, rfl⟩ := hrest
  rw [hslots]

theorem Reach.trans {start : ObjectId → Prop} {x y : ObjectId} (hy : s.Reach start y)
    (hx : s.Reach (· = y) x) : s.Reach start x := by
  refine hx.subset (s.Reach start) ?_ fun a b ha hl hb => .link ha hl hb
  rintro _ rfl -
  exact hy

end Space

namespace Heap

variable {φ : Type} {h : Heap φ} {policy : SoftPolicy} {order : List Nat} {id : ObjectId} {i : Nat}

section Lost

/-- Positions of the soft references that a policy clears. -/
def softLost (h : Heap φ) (policy : SoftPolicy) : List Nat :=
  lost (h.softTrace policy).1.space (h.softTrace policy).2

/-- Positions of the weak references that are cleared under a policy. -/
def weakLost (h : Heap φ) (policy : SoftPolicy) : List Nat :=
  lost (h.softTrace policy).1.space (ofKind .weak h.tracked)

variable (hu : h.space.Unmarked)

include hu

/-- The soft references that are cleared are those that the policy gives up and whose objects are
unmarked in the end. -/
theorem softLost_eq :
    h.softLost policy = lost (h.softTrace policy).1.space ((ofKind .soft h.tracked).filter fun r =>
      policy.gives r.2) :=
  lost_retainSoft policy _ (Trace.work_markRoots h.space) (Trace.closed_markRoots hu) fun _ hm => hm

theorem isMarked_softTrace_eq_false_iff : (h.softTrace policy).1.space.isMarked id = false ↔
    ¬h.KeptBy policy id := by
  rw [← isMarked_softTrace_iff policy hu, Bool.not_eq_true]

theorem mem_softLost_iff :
    i ∈ h.softLost policy ↔ ∃ r id, (i, r) ∈ h.tracked ∧ r.kind = .soft ∧ policy.gives r = true ∧
      r.referent = some id ∧ ¬h.KeptBy policy id := by
  rw [softLost_eq hu, mem_lost]
  simp only [List.mem_filter, mem_ofKind, isMarked_softTrace_eq_false_iff hu, and_assoc]

theorem mem_weakLost_iff :
    i ∈ h.weakLost policy ↔ ∃ r id, (i, r) ∈ h.tracked ∧ r.kind = .weak ∧ r.referent = some id ∧
      ¬h.KeptBy policy id := by
  rw [weakLost, mem_lost]
  simp only [mem_ofKind, isMarked_softTrace_eq_false_iff hu, and_assoc]

end Lost

section Together

variable {h : Heap Finalizer} {i j : Nat} {q : Reference} {x y : ObjectId}

theorem KeptBy.trans (hy : h.KeptBy policy y) (hx : h.space.Reach (· = y) x) : h.KeptBy policy x :=
  Space.Reach.trans hy hx

theorem keptBy_of_not_gives (hk : h.Tracks) (hq : h.references[j]? = some q)
    (ht : q.isTracked = true) (hsoft : q.kind = .soft) (hy : q.referent = some y)
    (hg : policy.gives q = false) : h.KeptBy policy y :=
  .base (.inr ⟨j, q, mem_tracked_of_isTracked hk hq ht, hsoft, hy, hg⟩) (hk j q y hq ht hy).2

/-- **With a soft reference to an object, every soft and weak reference is cleared whose object
reaches that one.** -/
theorem mem_lost_of_mem_softLost (hu : h.space.Unmarked) (hk : h.Tracks) {r : Reference}
    (hr : h.references[i]? = some r) (hx : r.referent = some x) (hi : i ∈ h.softLost policy)
    (hq : h.references[j]? = some q) (ht : q.isTracked = true) (hy : q.referent = some y)
    (hreach : h.space.Reach (· = y) x) :
    (q.kind = .soft → j ∈ h.softLost policy) ∧ (q.kind = .weak → j ∈ h.weakLost policy) := by
  obtain ⟨r', x', hmem, -, -, hx', hkept⟩ := (mem_softLost_iff hu).mp hi
  cases hr.symm.trans (mem_tracked.mp hmem).2.1
  cases hx.symm.trans hx'
  have hnot : ¬h.KeptBy policy y := fun hkept' => hkept (hkept'.trans hreach)
  have hmem' := mem_tracked_of_isTracked hk hq ht
  constructor
  · intro hsoft
    refine (mem_softLost_iff hu).mpr ⟨q, y, hmem', hsoft, ?_, hy, hnot⟩
    by_contra hg
    exact hnot (keptBy_of_not_gives hk hq ht hsoft hy (Bool.eq_false_iff.mpr hg))
  · exact fun hweak => (mem_weakLost_iff hu).mpr ⟨q, y, hmem', hweak, hy, hnot⟩

end Together

section Reordered

/-- The heap whose references were registered in another order. -/
def reordered (h : Heap φ) (order : List Nat) : Heap φ := { h with registered := order }

theorem tracked_reordered (hp : order.Perm h.registered) :
    (h.reordered order).tracked.Perm h.tracked :=
  hp.filterMap _

theorem mem_tracked_reordered (hp : order.Perm h.registered) {r : Reference} :
    (i, r) ∈ (h.reordered order).tracked ↔ (i, r) ∈ h.tracked :=
  (tracked_reordered hp).mem_iff

theorem keptBy_reordered (policy : SoftPolicy) (hp : order.Perm h.registered) :
    (h.reordered order).KeptBy policy id ↔ h.KeptBy policy id := by
  unfold KeptBy
  simp only [mem_tracked_reordered hp]
  rfl

theorem lost_perm (s : Space φ) {refs refs' : List (Nat × Reference)} (hp : refs'.Perm refs) :
    (lost s refs').Perm (lost s refs) :=
  (hp.filter _).map _

variable (policy) (hu : h.space.Unmarked) (hp : order.Perm h.registered)

include hu hp

/-- **The marks after the soft references do not depend on the order.** -/
theorem space_softTrace_reordered :
    ((h.reordered order).softTrace policy).1.space = (h.softTrace policy).1.space := by
  have hu' : (h.reordered order).space.Unmarked := hu
  refine Space.eq_of_plain_eq ?_ fun id => ?_
  · rw [(softTrace_spec policy hu').2.2, (softTrace_spec policy hu).2.2]
    rfl
  · rw [Bool.eq_iff_iff, isMarked_softTrace_iff policy hu', isMarked_softTrace_iff policy hu,
      keptBy_reordered policy hp]

/-- **Nor do the soft references that are cleared.** -/
theorem softLost_reordered : ((h.reordered order).softLost policy).Perm (h.softLost policy) := by
  have hu' : (h.reordered order).space.Unmarked := hu
  rw [softLost_eq hu', softLost_eq hu, space_softTrace_reordered policy hu hp]
  exact lost_perm _ (((tracked_reordered hp).filter _).filter _)

theorem weakLost_reordered : ((h.reordered order).weakLost policy).Perm (h.weakLost policy) := by
  unfold weakLost
  rw [space_softTrace_reordered policy hu hp]
  exact lost_perm _ ((tracked_reordered hp).filter _)

end Reordered

section Pauses

variable {settings : Settings} {reason : Reason} (hu : h.space.Unmarked)

include hu

theorem finalizerPhase_reordered (hp : order.Perm h.registered) :
    (h.reordered order).finalizerPhase settings reason = h.finalizerPhase settings reason := by
  have hspace : ((h.reordered order).softPhase settings reason).1.space =
      (h.softPhase settings reason).1.space :=
    space_softTrace_reordered (h.softPolicy settings reason) hu hp
  unfold finalizerPhase
  rw [hspace]

theorem toRun_reordered (hp : order.Perm h.registered) :
    (h.reordered order).toRun settings reason = h.toRun settings reason := by
  unfold toRun
  rw [finalizerPhase_reordered hu hp]

omit hu in
theorem survives_reordered (hp : order.Perm h.registered) :
    (h.reordered order).Survives settings reason id ↔ h.Survives settings reason id := by
  have hheld : ∀ id, (h.reordered order).Held settings reason id ↔
      h.Held settings reason id := fun id => keptBy_reordered (h.softPolicy settings reason) hp
  have hretained : ∀ id, (h.reordered order).Retained settings reason id ↔
      h.Retained settings reason id := by
    intro id
    unfold Retained
    simp only [mem_tracked_reordered hp]
    rfl
  unfold Survives Scheduled Finalizing
  simp only [hheld, hretained]
  rfl

variable (hm : h.space.Mirrored) (hp : order.Perm h.registered)

include hm hp

theorem space_lastTrace_reordered : ((h.reordered order).lastTrace settings reason).space =
      (h.lastTrace settings reason).space := by
  have hu' : (h.reordered order).space.Unmarked := hu
  have hm' : (h.reordered order).space.Mirrored := hm
  refine Space.eq_of_plain_eq ?_ fun id => ?_
  · rw [(lastTrace_spec settings reason hu').2.1, (lastTrace_spec settings reason hu).2.1,
      finalizerPhase_reordered hu hp]
  · rw [Bool.eq_iff_iff, isMarked_lastTrace_iff settings reason hu' hm',
      isMarked_lastTrace_iff settings reason hu hm, survives_reordered hp]

/-- **The objects after a pause do not depend on the order of registration.** -/
theorem space_pause_reordered : ((h.reordered order).pause settings reason).heap.space =
      (h.pause settings reason).heap.space := by
  rw [space_pause, space_pause]
  unfold pinnedSpace
  rw [toRun_reordered hu hp, space_lastTrace_reordered hu hm hp]

theorem pending_pause_reordered :
    ((h.reordered order).pause settings reason).pending.Perm (h.pause settings reason).pending := by
  have hphantom : (lost ((h.reordered order).lastTrace settings reason).space
      (ofKind .phantom (h.reordered order).tracked)).Perm
        (lost (h.lastTrace settings reason).space (ofKind .phantom h.tracked)) := by
    rw [space_lastTrace_reordered hu hm hp]
    exact lost_perm _ ((tracked_reordered hp).filter _)
  rw [pending_pause, pending_pause]
  exact ((softLost_reordered (h.softPolicy settings reason) hu hp).append
    (weakLost_reordered (h.softPolicy settings reason) hu hp)).append hphantom

/-- **Nor do the references.** -/
theorem references_pause_reordered : ((h.reordered order).pause settings reason).heap.references =
      (h.pause settings reason).heap.references := by
  refine Array.ext_getElem? fun i => ?_
  rw [references_pause, references_pause, getElem?_makePending, getElem?_makePending,
    (pending_pause_reordered hu hm hp).count_eq]
  rfl

end Pauses

end Heap

/-- How a heap clears its soft references. -/
structure Heap.ClearsTogether (h : Heap Finalizer) : Prop where
  /-- What is marked after the soft references does not depend on the order in which references were
  registered. -/
  marks : ∀ (policy : SoftPolicy) (order : List Nat), order.Perm h.registered →
    ((h.reordered order).softTrace policy).1.space = (h.softTrace policy).1.space
  /-- Which soft references are cleared does not, either. -/
  cleared : ∀ (policy : SoftPolicy) (order : List Nat), order.Perm h.registered →
    ((h.reordered order).softLost policy).Perm (h.softLost policy)
  /-- Nor does what a pause leaves. -/
  pauses : ∀ (settings : Settings) (reason : Reason) (order : List Nat), order.Perm h.registered →
    ((h.reordered order).pause settings reason).heap.space = (h.pause settings reason).heap.space ∧
    ((h.reordered order).pause settings reason).heap.references =
      (h.pause settings reason).heap.references
  /-- Where a policy clears a soft reference to an object, it clears every soft and weak reference
  that is held, active and not cleared, whose object is that one or reaches it. -/
  together : ∀ (policy : SoftPolicy) (i j : Nat) (r q : Reference) (x y : ObjectId),
    h.references[i]? = some r → r.referent = some x → i ∈ h.softLost policy →
    h.references[j]? = some q → q.isTracked = true → q.referent = some y → h.space.Reach (· = y) x →
    (q.kind = .soft → j ∈ h.softLost policy) ∧ (q.kind = .weak → j ∈ h.weakLost policy)
  /-- So does a pause. -/
  atOnce : ∀ (settings : Settings) (reason : Reason) (i j : Nat) (r q : Reference) (x y : ObjectId),
    h.references[i]? = some r → r.isTracked = true → r.kind = .soft → r.referent = some x →
      (h.pause settings reason).heap.references[i]? = some r.pended →
        h.references[j]? = some q → q.isTracked = true → q.kind ≠ .phantom → q.referent = some y →
          h.space.Reach (· = y) x → (h.pause settings reason).heap.references[j]? = some q.pended

namespace Heap

theorem clearsTogether {h : Heap Finalizer} (ht : h.Tidy) (hk : h.Tracks) (ho : h.Orderly) :
    h.ClearsTogether := by
  constructor
  case marks => exact fun policy order hp => space_softTrace_reordered policy ht.unmarked hp
  case cleared => exact fun policy order hp => softLost_reordered policy ht.unmarked hp
  case pauses =>
    exact fun settings reason order hp => ⟨space_pause_reordered ht.unmarked ht.mirrored hp,
      references_pause_reordered ht.unmarked ht.mirrored hp⟩
  case together =>
    exact fun policy i j r q x y hr hx hi hq htracked hy =>
      mem_lost_of_mem_softLost ht.unmarked hk hr hx hi hq htracked hy
  case atOnce =>
    intro settings reason i j r q x y hr htracked hsoft hx hpended hq htracked' hkind hy hreach
    have hi : i ∈ h.softLost (h.softPolicy settings reason) :=
      (mem_clearedOf_iff ho).mp ⟨r, hr, htracked, hsoft, hpended⟩
    obtain ⟨hsoftly, hweakly⟩ :=
      mem_lost_of_mem_softLost ht.unmarked hk hr hx hi hq htracked' hy hreach
    refine getElem?_pause_of_mem ho hq (mem_pending_iff_lostOf.mpr ?_)
    cases hq' : q.kind with
    | soft => exact ⟨.soft, hsoftly hq'⟩
    | weak => exact ⟨.weak, hweakly hq'⟩
    | phantom => exact absurd hq' hkind

end Heap

namespace World

section SoftClearing

/-- **Soft references are cleared together, whatever their order.**  In any heap of any run and
under any policy, what is marked after the soft references and which of them are cleared does not
depend on the order of registration.  With a soft reference to an object, all soft and weak
references are cleared that are held, active and not cleared, and whose object is that one or
reaches it through fields. -/
theorem clearsTogether_after (s : EngineSpec) (label : String) (moves : List Move)
    (e : Nat) (x : Runtime) (hx : ((start s label).after moves).engines[e]? = some x) :
    x.heap.ClearsTogether :=
  Heap.clearsTogether (tidy_heap hx).2
    ((coherent_after s label moves).tracking e x.heap (heaps_core hx))
    (orderly_after s label moves e x.heap (heaps_core hx))

/-- A thread makes a chain of two objects and, one collection apart, soft references to the first
and to the last of them; the last one reaches the first.  A weak reference watches the first.  Then
the thread drops its roots. -/
def cachedMoves : List Move :=
  .call "main" ::
    (ordered 0 (.chain "gc" 2 16 (some "last")) 14 ++
      ordered 1 (.getField "gc" "last" 0 (some "first")) 4 ++
      ordered 2 (.newReference "gc" "old" "first" (some .soft) none) 4 ++
      ordered 3 (.newReference "gc" "weak" "first" (some .weak) none) 4 ++
      ordered 4 (.collect "gc" none) 28 ++
      ordered 5 (.newReference "gc" "fresh" "last" (some .soft) none) 4 ++
      ordered 6 (.dropRoots ["first", "last"]) 6)

/-- A policy that gives up the older reference only finds its object unmarked in one order and
marked in the other; in both the fresh reference saves it.  In an emergency the three references are
cleared at once. -/
theorem clearsTogether_cached : ∃ (x : Runtime) (old weak fresh : Reference),
    ((start startedEngine "gc").after cachedMoves).engines[0]? = some x ∧
    (x.heap.softTrace ⟨false, 1, 1⟩).2 = [(0, old)] ∧
    ((x.heap.reordered [2, 1, 0]).softTrace ⟨false, 1, 1⟩).2 = [] ∧
    ((x.heap.reordered [2, 1, 0]).softTrace ⟨false, 1, 1⟩).1.space =
      (x.heap.softTrace ⟨false, 1, 1⟩).1.space ∧
    (x.heap.pause x.settings (.emergency 0)).heap.references[0]? = some old.pended ∧
    (x.heap.pause x.settings (.emergency 0)).heap.references[1]? = some weak.pended ∧
    (x.heap.pause x.settings (.emergency 0)).heap.references[2]? = some fresh.pended := by
  let old : Reference := ⟨1, .soft, some ⟨0, 1⟩, .active, none, 0, 1⟩
  let weak : Reference := ⟨2, .weak, some ⟨0, 1⟩, .active, none, 0, 1⟩
  let fresh : Reference := ⟨3, .soft, some ⟨1, 1⟩, .active, none, 1, 1⟩
  have hreferences : (((start startedEngine "gc").after cachedMoves).engines[0]?).map (fun x =>
      (x.heap.registered, x.heap.references[0]?, x.heap.references[1]?, x.heap.references[2]?,
        (x.heap.pause x.settings (.emergency 0)).heap.references[0]?)) =
      some ([0, 1, 2], some old, some weak, some fresh, some old.pended) := by decide +kernel
  have hgiven : (((start startedEngine "gc").after cachedMoves).engines[0]?).map (fun x =>
        ((x.heap.softTrace ⟨false, 1, 1⟩).2,
        ((x.heap.reordered [2, 1, 0]).softTrace ⟨false, 1, 1⟩).2)) = some ([(0, old)], []) := by
    decide +kernel
  have hlinks : (((start startedEngine "gc").after cachedMoves).engines[0]?).map (fun x =>
      ((x.heap.space.get? ⟨1, 1⟩).map (·.fields), x.heap.space.contains ⟨0, 1⟩)) =
      some (some #[some ⟨0, 1⟩], true) := by decide +kernel
  obtain ⟨x, hx, hreferences⟩ := Option.map_eq_some_iff.mp hreferences
  rw [hx] at hgiven hlinks
  simp only [Option.map_some, Option.some.injEq, Prod.mk.injEq,
    Option.map_eq_some_iff] at hreferences hgiven hlinks
  obtain ⟨horder, hold, hweak, hfresh, hpended⟩ := hreferences
  obtain ⟨⟨last, hlast, hfields⟩, hfirst⟩ := hlinks
  have htogether := clearsTogether_after startedEngine "gc" cachedMoves 0 x hx
  have hreach : x.heap.space.Reach (· = ⟨1, 1⟩) ⟨0, 1⟩ :=
    .link (.base rfl (Space.contains_of_get? hlast)) ⟨last, hlast, by simp [hfields]⟩ hfirst
  refine ⟨x, old, weak, fresh, hx, hgiven.1, hgiven.2, ?_, hpended, ?_, ?_⟩
  · exact htogether.marks ⟨false, 1, 1⟩ [2, 1, 0] (by rw [horder]; decide)
  · exact htogether.atOnce x.settings (.emergency 0) 0 1 old weak
      ⟨0, 1⟩ ⟨0, 1⟩ hold rfl rfl rfl hpended hweak rfl (by decide) rfl (.base rfl hfirst)
  · exact htogether.atOnce x.settings (.emergency 0) 0 2 old fresh
      ⟨0, 1⟩ ⟨1, 1⟩ hold rfl rfl rfl hpended hfresh rfl (by decide) rfl hreach

end SoftClearing

end World

end ManagedHeap
