import ManagedHeap.Proofs.Handles

/-!
# Counting roots

**Input.**  A run.

**Algorithm.**  The counter of a record is compared with the roots that somebody has: the program
and its calls, the jobs that were not finished, and the finalizers that were not dropped, be they
attached to an object or not.  Every act that copies a root or gives one back meets an exact
counter.

**Results.**  `World.countsRoots_after`: every counter is exact, so no root is ever copied after its
object is gone, and none is given back that its record did not count.
-/

namespace ManagedHeap

open Asset (gather)

namespace Space

variable {φ : Type} {s : Space φ} {id : ObjectId}

theorem isUnrooted_of_pins_pos (h : 0 < s.pins id) : s.isUnrooted id = false := by
  unfold isUnrooted
  cases hr : s.get? id with
  | none => rfl
  | some r =>
    rw [pins_of_get? hr] at h
    exact decide_eq_false (Nat.ne_of_gt h)

end Space

namespace Heap

variable {h : Heap Finalizer}

theorem faults_newReference {h' : Heap Finalizer} {id i : Nat} {kind : ReferenceKind}
    {r : Root} {queue : Option Nat} (hn : h.newReference id kind r queue = .ok (i, h')) :
    h'.faults = h.faults := by
  unfold newReference at hn
  split at hn <;> cases hn
  rfl

theorem faults_pin {id : ObjectId} (hc : h.space.contains id = true) :
    (h.pin id).faults = h.faults := if_pos hc

theorem faults_unpin {id : ObjectId} (hpos : 0 < h.space.pins id) :
    (h.unpin id).faults = h.faults := by
  unfold unpin
  dsimp only
  rw [Space.isUnrooted_of_pins_pos hpos]
  rfl

end Heap

/-- No root was copied after its object was gone, or given back though its object had none. -/
def Core.Faultless (c : Core) : Prop :=
  ∀ (e : Nat) (x : Heap Finalizer), c.heaps[e]? = some x → x.faults = 0

namespace Act

variable {c c' : Core} {p p' : Multiset Asset} {deeds : List Deed}

/-- Where counts are exact, whoever copies a root finds its object, and whoever gives one back finds
it counted. -/
theorem faultless (h : Act L c p deeds c' p') (hc : c.Coherent p) (hf : c.Faultless) :
    c'.Faultless := by
  have onHeap : ∀ {e f},
      (∀ x, c.heaps[e]? = some x → (f x).faults = x.faults) → (c.modifyHeap e f).Faultless :=
    fun hsame => Core.forall_heaps_modifyHeap hf fun x hx hzero => (hsame x hx).trans hzero
  cases h with
  | transfer heaps =>
    unfold Core.Faultless
    rwa [heaps]
  | makeHeap => exact Core.forall_heaps_addHeap hf rfl
  | makeLine | dequeue | bind | unbind | run | discard => exact hf
  | fetch hx hid =>
    refine onHeap fun y hy => ?_
    rw [hx] at hy
    cases hy
    exact Heap.faults_pin hid
  | clone hr =>
    obtain ⟨x, hx, hlive⟩ := hc.balanced.live (Core.mem_roots_of_owned hr)
    refine onHeap fun y hy => ?_
    rw [hx] at hy
    cases hy
    exact Heap.faults_pin hlive
  | drop r =>
    have hmem : r ∈ c.roots (.root r ::ₘ p') :=
      Core.mem_roots_of_owned ⟨.root r, by simp, by simp [Asset.roots]⟩
    refine onHeap fun y hy => Heap.faults_unpin ?_
    rw [← Core.pins_of_heap hy, hc.balanced r]
    exact Multiset.count_pos.mpr hmem
  | finish | write | store | adjust | settle | claim | retain | release | discharge | pause =>
    exact onHeap fun _ _ => rfl
  | refer hx hn =>
    refine onHeap fun y hy => ?_
    rw [hx] at hy
    cases hy
    exact Heap.faults_newReference hn
  | enqueue q k =>
    have hretain : (c.modifyHeap k.heap (·.retain k.position)).Faultless := onHeap fun _ _ => rfl
    exact hretain

end Act

namespace Asset

/-- The root that the program or one of its calls has. -/
def ofProgram : Asset → List Root
  | .root r => [r]
  | _ => []

def ofJob : Asset → List Root
  | .job j => [j.object]
  | _ => []

/-- The roots that a finalizer owns which is no longer attached. -/
def ofFinalizer : Asset → List Root
  | .job j => j.finalizer.held
  | .closure f => f.held
  | _ => []

theorem roots_eq (a : Asset) : a.roots = ofProgram a ++ ofJob a ++ ofFinalizer a := by
  cases a <;> rfl

theorem gather_roots (assets : Multiset Asset) : gather roots assets =
      gather ofProgram assets + gather ofJob assets + gather ofFinalizer assets := by
  induction assets using Multiset.induction with
  | empty => rfl
  | cons a rest ih =>
    rw [gather_cons, gather_cons, gather_cons, gather_cons, ih, roots_eq, ← Multiset.coe_add,
      ← Multiset.coe_add]
    abel

end Asset

namespace World

section Owners

/-- Roots of the program: under its names on either side of the foreign boundary, and in its
calls. -/
def programRoots (w : World) : Multiset Root := gather Asset.ofProgram w.core.assets

def jobRoots (w : World) : Multiset Root := gather Asset.ofJob w.core.assets

/-- Roots that finalizers own which were neither run nor dropped. -/
def finalizerRoots (w : World) : Multiset Root :=
  gather Asset.ofFinalizer w.core.assets + heldRoots w.core.attached

theorem roots_eq_add (w : World) : w.roots = w.programRoots + w.jobRoots + w.finalizerRoots := by
  unfold roots Core.roots programRoots jobRoots finalizerRoots
  rw [add_zero, Asset.gather_roots, add_assoc]

end Owners

/-- Whether the counters of records agree with the roots that are outstanding. -/
structure CountsRoots (w : World) : Prop where
  /-- Every record counts the roots of its object, whoever has them. -/
  counts : ∀ (e : Nat) (x : Runtime), w.engines[e]? = some x →
    ∀ id record, x.heap.space.get? id = some record → record.roots =
      w.programRoots.count ⟨e, id⟩ + w.jobRoots.count ⟨e, id⟩ + w.finalizerRoots.count ⟨e, id⟩
  /-- Every outstanding root finds a record that counts it. -/
  finds : ∀ r ∈ w.programRoots + w.jobRoots + w.finalizerRoots, ∃ x record,
    w.engines[r.heap]? = some x ∧ x.heap.space.get? r.object = some record ∧ 0 < record.roots
  /-- Up to now every copy found its object, and every root that was given back had been counted. -/
  faultless : ∀ (e : Nat) (x : Runtime), w.engines[e]? = some x → x.heap.faults = 0

section Counting

variable (s : EngineSpec) (label : String) (moves : List Move)

theorem faultless_after : ((start s label).after moves).core.Faultless :=
  (invariant_after (P := fun c p _ => c.Coherent p ∧ c.Faultless)
    (fun hreg h hc => ⟨h.coherent hreg hc.1, h.faultless hc.1 hc.2⟩)
    ⟨Core.coherent_empty, fun e x hx => by simp [Core.heaps, core] at hx⟩ s label moves).2

/-- **Root counting is balanced.**  After any moves the counter of every record is the number of
roots of its object that the program, jobs and finalizers have.  So whoever copied a root found its
object, and whoever gave one back found it counted. -/
theorem countsRoots_after : ((start s label).after moves).CountsRoots := by
  have hc := coherent_after s label moves
  have hf := faultless_after s label moves
  generalize (start s label).after moves = w at hc hf
  have hcount : ∀ {e : Nat} {x : Runtime} {id : ObjectId} {record : Record Finalizer},
      w.engines[e]? = some x → x.heap.space.get? id = some record →
      record.roots = (w.programRoots + w.jobRoots + w.finalizerRoots).count ⟨e, id⟩ := by
    intro e x id record hx hrecord
    rw [← roots_eq_add, ← Space.pins_of_get? hrecord]
    exact (Core.pins_of_heap (r := ⟨e, id⟩) (heaps_core hx)).symm.trans (hc.balanced ⟨e, id⟩)
  constructor
  case counts =>
    intro e x hx id record hrecord
    rw [hcount hx hrecord, Multiset.count_add, Multiset.count_add]
  case finds =>
    intro r hr
    rw [← roots_eq_add] at hr
    obtain ⟨y, hy, hlive⟩ := hc.balanced.live hr
    obtain ⟨x, hx, rfl⟩ := exists_engine_of_heap hy
    obtain ⟨record, hrecord⟩ := Space.contains_iff.mp hlive
    refine ⟨x, record, hx, hrecord, ?_⟩
    rw [hcount hx hrecord, ← roots_eq_add]
    exact Multiset.count_pos.mpr hr
  case faultless => exact fun e x hx => hf e x.heap (heaps_core hx)

end Counting

end World

end ManagedHeap
