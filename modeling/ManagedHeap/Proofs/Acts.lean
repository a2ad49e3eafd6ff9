import ManagedHeap.Proofs.Assets
import ManagedHeap.Proofs.Outcome

/-!
# Acts

**Input.**  The core of a world, and the hand of the thread that acts: what it has taken from its
owners and not given to another one.

**Algorithm.**  Whatever a thread does to what is owned is a sequence of acts.  An act moves assets
between owners, or is one operation on one heap, or opens a finalizer.  It says which deeds were
done.

**Results.**  `Act` and `Acts`.  An act keeps a core regular and moves every reference forward
(`Act.progress`).
-/

namespace ManagedHeap

/-- What is done to finalizers of objects and to references. -/
inductive Deed where
  /-- An object was stored with its finalizer. -/
  | allocated (object : Root) (f : Finalizer)
  /-- A heap was collected. -/
  | paused (engine : Nat)
  /-- A collection made a job of the finalizer of an object. -/
  | scheduled (object : Root) (f : Finalizer)
  /-- A collection took the finalizer of an object to drop it. -/
  | discarded (object : Root) (f : Finalizer)
  /-- The finalizer of a job has run, to its end or to a panic. -/
  | ran (object : Root) (f : Finalizer)
  /-- The finalizer of a job was dropped without running. -/
  | dropped (object : Root) (f : Finalizer)
  /-- A reference was claimed for its queue. -/
  | claimed (h : Handle)
  | pushed (queue : Nat) (h : Handle)
  | popped (queue : Nat) (h : Handle)
  deriving DecidableEq

def Asset.roots : Asset → List Root
  | .root r => [r]
  | .job j => j.object :: j.finalizer.held
  | .closure f => f.held
  | _ => []

namespace Asset

variable {β : Type} {g : Asset → List β}

def gather (g : Asset → List β) (assets : Multiset Asset) : Multiset β :=
  assets.bind fun a => ↑(g a)

@[simp]
theorem gather_zero : gather g 0 = 0 := rfl

@[simp]
theorem gather_add (a b : Multiset Asset) : gather g (a + b) = gather g a + gather g b :=
  Multiset.add_bind _ _ _

@[simp]
theorem gather_cons (a : Asset) (b : Multiset Asset) : gather g (a ::ₘ b) = ↑(g a) + gather g b :=
  Multiset.cons_bind _ _ _

@[simp]
theorem gather_singleton (a : Asset) : gather g {a} = ↑(g a) := Multiset.singleton_bind _ _

theorem gather_coe (l : List Asset) : gather g ↑l = ↑(l.flatMap g) := Multiset.coe_bind _ _

theorem gather_map_of_nil (l : List α) (h : ∀ x, g (k x) = []) : gather g ↑(l.map k) = 0 := by
  rw [gather_coe, List.flatMap_map]
  simp [h]

theorem gather_eq_zero (h : ∀ a ∈ assets, g a = []) : gather g assets = 0 := by
  refine Multiset.eq_zero_of_forall_notMem fun b hb => ?_
  obtain ⟨a, ha, hb⟩ := Multiset.mem_bind.mp hb
  simp [h a ha] at hb

theorem mem_gather : b ∈ gather g assets ↔ ∃ a ∈ assets, b ∈ g a := Multiset.mem_bind

end Asset

namespace Core

def Routes (c : Core) (h : Handle) (q : Nat) : Prop :=
  ∃ r, c.reference? h = some r ∧ r.queue = some q

def Cleared (c : Core) (h : Handle) : Prop := ∃ r, c.reference? h = some r ∧ r.referent = none

def Owned (c : Core) (p : Multiset Asset) (r : Root) : Prop := ∃ a ∈ c.assets + p, r ∈ a.roots

def Handled (c : Core) (p : Multiset Asset) (h : Handle) : Prop := Asset.handle h ∈ c.assets + p

end Core

/-- Whether a task speaks of engines and queues that are there; who claims an active reference has
cleared it. -/
def Task.Fits (c : Core) : Task → Prop
  | .allocate e _ | .attempt e _ | .garbage e .. | .garbageNext e .. | .chain e ..
  | .chainNext e .. => e < c.cells.size
  | .enqueuePending e .. | .schedule e .. => e < c.cells.size
  | .claimActive h q => c.Routes h q ∧ c.Cleared h
  | .claimPending h q | .pushQueue q h => c.Routes h q
  | .blocking _ (.lockCollector _) | .blocking _ (.waitOnQueue ..) | .blocking _ (.awaitDrain ..) =>
    True
  | .blocking .. => False
  | _ => True

/-- Whether no name is bound twice. -/
structure Bindings.Distinct (b : Bindings) : Prop where
  objects : (b.objects.map Prod.fst).Nodup
  foreignObjects : (b.foreignObjects.map Prod.fst).Nodup
  references : (b.references.map Prod.fst).Nodup
  foreignReferences : (b.foreignReferences.map Prod.fst).Nodup

/-- Stacks fit together, tasks and names speak of what is there. -/
structure Core.Regular (c : Core) : Prop where
  typed : ∀ (t : Nat) (s : Stack), c.threads[t]? = some s → (need s.tasks).isSome = true
  fits : ∀ (t : Nat) (s : Stack), c.threads[t]? = some s → ∀ task ∈ s.tasks, task.Fits c
  distinct : c.bindings.Distinct
  routed : ∀ h r q, c.reference? h = some r → r.queue = some q → q < c.lines.size
  named : ∀ b ∈ c.bindings.queues, b.2 < c.lines.size

/-- A reference names the same object later, or none. -/
def Reference.Fades (r r' : Reference) : Prop := r'.referent = r.referent ∨ r'.referent = none

/-- A change of a reference that touches neither its stage nor its handles. -/
structure Reference.Adjusts (r r' : Reference) : Prop where
  id : r'.id = r.id
  kind : r'.kind = r.kind
  stage : r'.stage = r.stage
  queue : r'.queue = r.queue
  handles : r'.handles = r.handles
  referent : r.Fades r'

/-- What a thread may do to flags of records and to reference clocks: which objects it may mark as
done with their finalizers, and which references it may note as used. -/
structure Licence where
  finishes : Root → Prop
  accesses : Handle → Prop

def Licence.free : Licence := ⟨fun _ => True, fun _ => True⟩

/-- A licence that allows no less than another one. -/
structure Licence.Within (L M : Licence) : Prop where
  finishes : ∀ r, L.finishes r → M.finishes r
  accesses : ∀ h, L.accesses h → M.accesses h

theorem Licence.Within.free (L : Licence) : L.Within .free :=
  ⟨fun _ _ => trivial, fun _ _ => trivial⟩

/-- One thing that a thread does to what is owned. -/
inductive Act (L : Licence) (c : Core) : Multiset Asset → List Deed → Core → Multiset Asset → Prop
  /-- Assets pass from owner to owner. -/
  | transfer {c' : Core} {p p' : Multiset Asset} (heaps : c'.heaps = c.heaps)
      (lines : c'.lines = c.lines) (regular : c.Regular → c'.Regular)
      (owners : c'.assets + p' = c.assets + p) : Act L c p [] c' p'
  | makeHeap (capacity : Nat) :
      Act L c p [] { c with cells := c.cells.push ⟨Heap.empty c.cells.size capacity, []⟩ } p
  | makeLine : Act L c p [] { c with lines := c.lines.push ⟨[], 0⟩ } p
  /-- A new root of an object that is there. -/
  | fetch {id : ObjectId} {x : Heap Finalizer}
      (hx : c.heaps[e]? = some x) (hid : x.space.contains id = true) :
      Act L c p [] (c.modifyHeap e (·.pin id)) (.root ⟨x.key, id⟩ ::ₘ p)
  /-- A second root beside one that somebody has. -/
  | clone (hr : c.Owned p r) : Act L c p [] (c.modifyHeap r.heap (·.pin r.object)) (.root r ::ₘ p)
  | drop (r : Root) : Act L c (.root r ::ₘ p) [] (c.modifyHeap r.heap (·.unpin r.object)) p
  | finish (r : Root)
      (hr : L.finishes r) : Act L c p [] (c.modifyHeap r.heap (·.finishFinalization r.object)) p
  | write {x : Heap Finalizer} (hx : c.heaps[e]? = some x)
      (hw : x.checkField r index value = .ok ()) (hv : ∀ v, value = some v → c.Owned p v) :
      Act L c p [] (c.modifyHeap e (·.writeField r index (value.map (·.object)))) p
  | store {x : Heap Finalizer} (hx : c.heaps[e]? = some x) (size fields : Nat)
      (f : Option Finalizer) (hfit : x.space.canFit size = true) :
      Act L c (↑(f.toList.map Asset.closure) + p) (f.toList.map (.allocated x.nextRoot))
      (c.modifyHeap e (·.store size fields f)) (.root x.nextRoot ::ₘ p)
  /-- A new reference. -/
  | refer {id : Nat} {x : Heap Finalizer} (hx : c.heaps[e]? = some x)
      (hn : x.newReference id kind r queue = .ok (i, x')) (hr : c.Owned p r)
      (hq : ∀ q, queue = some q → q < c.lines.size) :
      Act L c p [] (c.modifyHeap e fun _ => x') (.handle ⟨e, i⟩ ::ₘ p)
  | adjust (h : Handle) (g : Reference → Reference) (hg : ∀ r : Reference, r.Adjusts (g r))
      (ha : ∀ x, c.heaps[h.heap]? = some x → ∀ r : Reference,
        (g r).lastAccess = r.lastAccess ∨ L.accesses h ∧ (g r).lastAccess = x.clock) :
      Act L c p [] (c.modifyHeap h.heap (·.updateReference h.position g)) p
  /-- A reference is done with. -/
  | settle (hr : c.reference? h = some r)
      (hs : r.stage = .pending ∧ r.queue = none ∨ r.stage = .enqueued) : Act L c p []
      (c.modifyHeap h.heap (·.updateReference h.position fun r => { r with stage := .inactive })) p
  | claim (hr : c.reference? h = some r) (hq : r.queue = some q)
      (hs : r.stage = .active ∨ r.stage = .pending)
      (hc : r.stage = .active → r.referent = none) : Act L c p [.claimed h]
        (c.modifyHeap h.heap (·.updateReference h.position fun r => { r with stage := .enqueued }))
        (.claim q h ::ₘ p)
  | retain (hh : c.Handled p h) :
      Act L c p [] (c.modifyHeap h.heap (·.retain h.position)) (.handle h ::ₘ p)
  | release (h : Handle) :
      Act L c (.handle h ::ₘ p) [] (c.modifyHeap h.heap (·.release h.position)) p
  /-- A list of pending references gives one of them back. -/
  | discharge (hs : ∀ r, c.reference? h = some r → r.stage ≠ .pending) :
      Act L c (.pending h ::ₘ p) [] (c.modifyHeap h.heap (·.release h.position)) p
  | enqueue (q : Nat) (h : Handle) : Act L c (.claim q h ::ₘ p) [.pushed q h]
      ((c.modifyHeap h.heap (·.retain h.position)).modifyLine q
        fun l => ⟨l.entries ++ [h], l.enqueued + 1⟩) p
  | dequeue (hq : c.lines[q]? = some ⟨h :: rest, n⟩) :
      Act L c p [.popped q h] (c.modifyLine q fun _ => ⟨rest, n⟩) (.handle h ::ₘ p)
  | pause {x : Heap Finalizer} (hx : c.heaps[e]? = some x) (settings : Settings)
      (reason : Reason) : Act L c p (.paused e :: (((x.pause settings reason).jobs.map fun j =>
        .scheduled j.object j.finalizer) ++ (x.pause settings reason).discarded.map fun d =>
        .discarded ⟨x.key, d.1⟩ d.2)) (c.modifyHeap e fun y => (y.pause settings reason).heap)
      (↑((x.pause settings reason).discarded.map fun d => Asset.closure d.2) +
        (↑((x.pause settings reason).pending.map fun i => Asset.pending ⟨e, i⟩) +
        (↑((x.pause settings reason).jobs.map Asset.job) + p)))
  /-- Roots become part of a finalizer. -/
  | bind (f : Finalizer) : Act L c (↑(f.held.map Asset.root) + p) [] c (.closure f ::ₘ p)
  | unbind (f : Finalizer) : Act L c (.closure f ::ₘ p) [] c (↑(f.held.map Asset.root) + p)
  | run (j : Job Finalizer) : Act L c (.job j ::ₘ p) [.ran j.object j.finalizer] c
      (↑(j.finalizer.held.map Asset.root) + (.root j.object ::ₘ p))
  | discard (j : Job Finalizer) : Act L c (.job j ::ₘ p) [.dropped j.object j.finalizer] c
      (.root j.object ::ₘ .closure j.finalizer ::ₘ p)

/-- Acts one after the other. -/
inductive Acts (L : Licence) : Core → Multiset Asset → List Deed → Core → Multiset Asset → Prop
  | nil : Acts L c p [] c p
  | cons (first : Act L c p deeds c₁ p₁)
      (others : Acts L c₁ p₁ more c₂ p₂) : Acts L c p (deeds ++ more) c₂ p₂

variable {c c' : Core} {x : Cell} {p p' : Multiset Asset} {deeds : List Deed}

namespace Acts

variable {c c₁ c₂ : Core} {p p₁ p₂ : Multiset Asset} {deeds more : List Deed}

theorem single (h : Act L c p deeds c₁ p₁) : Acts L c p deeds c₁ p₁ := by
  have := Acts.cons h .nil
  rwa [List.append_nil] at this

theorem trans (h : Acts L c p deeds c₁ p₁) (h' : Acts L c₁ p₁ more c₂ p₂) :
    Acts L c p (deeds ++ more) c₂ p₂ := by
  induction h with
  | nil => exact h'
  | cons first _ ih =>
    rw [List.append_assoc]
    exact .cons first (ih h')

theorem andThen (h : Acts L c p [] c₁ p₁) (h' : Acts L c₁ p₁ deeds c₂ p₂) :
    Acts L c p deeds c₂ p₂ :=
  h.trans h'

theorem followedBy (h : Acts L c p deeds c₁ p₁) (h' : Acts L c₁ p₁ [] c₂ p₂) :
    Acts L c p deeds c₂ p₂ := by
  have := h.trans h'
  rwa [List.append_nil] at this

end Acts

theorem Act.mono (hL : L.Within M) (h : Act L c p deeds c' p') : Act M c p deeds c' p' := by
  cases h with
  | finish r hr => exact .finish r (hL.finishes r hr)
  | adjust k g hg ha =>
    exact .adjust k g hg fun x hx r => (ha x hx r).imp_right fun h => ⟨hL.accesses k h.1, h.2⟩
  | transfer heaps lines regular owners => exact .transfer heaps lines regular owners
  | makeHeap capacity => exact .makeHeap capacity
  | makeLine => exact .makeLine
  | fetch hx hid => exact .fetch hx hid
  | clone hr => exact .clone hr
  | drop r => exact .drop r
  | write hx hw hv => exact .write hx hw hv
  | store hx size fields f hfit => exact .store hx size fields f hfit
  | refer hx hn hr hq => exact .refer hx hn hr hq
  | settle hr hs => exact .settle hr hs
  | claim hr hq hs hc => exact .claim hr hq hs hc
  | retain hh => exact .retain hh
  | release h => exact .release h
  | discharge hs => exact .discharge hs
  | enqueue q h => exact .enqueue q h
  | dequeue hq => exact .dequeue hq
  | pause hx settings reason => exact .pause hx settings reason
  | bind f => exact .bind f
  | unbind f => exact .unbind f
  | run j => exact .run j
  | discard j => exact .discard j

theorem Acts.mono (hL : L.Within M) (h : Acts L c p deeds c' p') : Acts M c p deeds c' p' := by
  induction h with
  | nil => exact .nil
  | cons first _ ih => exact .cons (first.mono hL) ih

/-- A reference and what it is later. -/
structure Reference.Precedes (r r' : Reference) : Prop where
  id : r'.id = r.id
  kind : r'.kind = r.kind
  queue : r'.queue = r.queue
  stage : r.stage.rank ≤ r'.stage.rank

theorem Reference.Precedes.refl (r : Reference) : r.Precedes r := ⟨rfl, rfl, rfl, le_rfl⟩

theorem Reference.Precedes.trans {a b c : Reference} (h : a.Precedes b) (h' : b.Precedes c) :
    a.Precedes c :=
  ⟨h'.id.trans h.id, h'.kind.trans h.kind, h'.queue.trans h.queue, h.stage.trans h'.stage⟩

theorem Reference.Fades.trans {a b c : Reference} (h : a.Fades b) (h' : b.Fades c) : a.Fades c := by
  rcases h' with hsame | hnone
  · unfold Fades
    rwa [hsame]
  · exact .inr hnone

/-- A core and what it is later: nothing goes away, and references move forward. -/
structure Core.Extends (c c' : Core) : Prop where
  cells : c.cells.size ≤ c'.cells.size
  lines : c.lines.size ≤ c'.lines.size
  references : ∀ h r, c.reference? h = some r → ∃ r', c'.reference? h = some r' ∧ r.Precedes r'
  fades : ∀ h r r', c.reference? h = some r → c'.reference? h = some r' → r.Fades r'

/-- A heap and what it is later; new references go to queues that are there. -/
structure Heap.Progresses (limit : Nat) (x x' : Heap Finalizer) : Prop where
  forward : ∀ (i : Nat) (r : Reference), x.references[i]? = some r →
    ∃ r', x'.references[i]? = some r' ∧ r.Precedes r'
  fades : ∀ (i : Nat) (r r' : Reference), x.references[i]? = some r → x'.references[i]? = some r' →
    r.Fades r'
  backward : ∀ (i : Nat) (r' : Reference), x'.references[i]? = some r' → ∀ q, r'.queue = some q →
    q < limit ∨ ∃ r, x.references[i]? = some r ∧ r.queue = some q

namespace Core

variable {c c' : Core} {e : Nat} {f : Heap Finalizer → Heap Finalizer}

@[simp]
theorem heaps_modifyHeap : (c.modifyHeap e f).heaps = c.heaps.modify e f := by
  unfold heaps modifyHeap
  dsimp only
  apply map_modify
  intro x
  rfl

theorem forall_heaps_modifyHeap {P : Nat → Heap Finalizer → Prop}
    (h : ∀ e x, c.heaps[e]? = some x → P e x) (hf : ∀ x, c.heaps[e]? = some x → P e x → P e (f x)) :
    ∀ e' y, (c.modifyHeap e f).heaps[e']? = some y → P e' y := by
  intro e' y hy
  rw [heaps_modifyHeap, Array.getElem?_modify] at hy
  split at hy
  · next he =>
      subst he
      obtain ⟨x, hx, rfl⟩ := Option.map_eq_some_iff.mp hy
      exact hf x hx (h e x hx)
  · exact h e' y hy

theorem forall_heaps_addHeap {P : Nat → Heap Finalizer → Prop}
    (h : ∀ e x, c.heaps[e]? = some x → P e x) (hx : P c.cells.size x.heap) :
    ∀ e y, ({ c with cells := c.cells.push x } : Core).heaps[e]? = some y → P e y := by
  intro e y hy
  unfold heaps at hy
  rw [Array.map_push, Array.getElem?_push] at hy
  split at hy
  · next he =>
      cases hy
      rw [he, Array.size_map]
      exact hx
  · exact h e y hy

@[simp]
theorem channels_modifyHeap : (c.modifyHeap e f).channels = c.channels := by
  have h : (c.modifyHeap e f).channels = c.channels.modify e fun x => x := by
    unfold channels modifyHeap
    dsimp only
    apply map_modify
    intro x
    rfl
  rw [h, modify_eq_self fun _ _ => rfl]

@[simp]
theorem assets_modifyHeap : (c.modifyHeap e f).assets = c.assets := by
  unfold assets
  rw [channels_modifyHeap]
  rfl

theorem modifyHeap_modifyHeap :
    (c.modifyHeap e f).modifyHeap e g = c.modifyHeap e fun x => g (f x) := by
  unfold modifyHeap
  rw [modify_modify]

theorem modifyHeap_congr (h : ∀ x, c.heaps[e]? = some x → f x = g x) :
    c.modifyHeap e f = c.modifyHeap e g := by
  unfold modifyHeap
  rw [modify_congr fun x hx => ?_]
  rw [h x.heap (by simp [heaps, hx])]

theorem modifyHeap_eq_self (h : ∀ x, c.heaps[e]? = some x → f x = x) : c.modifyHeap e f = c := by
  unfold modifyHeap
  rw [modify_eq_self fun x hx => ?_]
  rw [h x.heap (by simp [heaps, hx])]

theorem reference?_modifyHeap (h : Handle) : (c.modifyHeap e f).reference? h =
      if e = h.heap then (c.heaps[e]?).bind fun x => (f x).references[h.position]?
        else c.reference? h := by
  unfold reference?
  rw [heaps_modifyHeap, Array.getElem?_modify]
  split
  · next he =>
      subst he
      cases c.heaps[h.heap]? <;> rfl
  · rfl

theorem reference?_updateReference (h k : Handle) (g : Reference → Reference) :
    (c.modifyHeap h.heap (·.updateReference h.position g)).reference? k =
      if k = h then (c.reference? h).map g else c.reference? k := by
  rw [reference?_modifyHeap]
  rcases h with ⟨e, i⟩
  rcases k with ⟨e', i'⟩
  simp only [Handle.mk.injEq, reference?, Heap.updateReference, Array.getElem?_modify]
  by_cases he : e = e'
  · subst he
    by_cases hi : i = i'
    · subst hi
      cases c.heaps[e]? <;> simp
    · simp [hi, Ne.symm hi]
  · rw [if_neg he, if_neg (fun h => he h.1.symm)]

theorem Extends.of_heaps (heaps : c'.heaps = c.heaps) (lines : c'.lines = c.lines) :
    c.Extends c' where
  cells := by
    have := congrArg Array.size heaps
    simpa [Core.heaps] using this.ge
  lines := by rw [lines]
  references h r hr := ⟨r, by unfold reference? at hr ⊢; rwa [heaps], .refl r⟩
  fades h r r' hr hr' := by
    unfold reference? at hr hr'
    rw [heaps, hr] at hr'
    cases hr'
    exact .inl rfl

theorem Extends.modifyHeap (h : ∀ x, c.heaps[e]? = some x → x.Progresses limit (f x)) :
    c.Extends (c.modifyHeap e f) where
  cells := by simp [Core.modifyHeap]
  lines := le_rfl
  references k r hr := by
    rw [reference?_modifyHeap]
    split
    · next he =>
        subst he
        obtain ⟨x, hx, hr⟩ := Option.bind_eq_some_iff.mp hr
        obtain ⟨r', hr', hp⟩ := (h x hx).forward _ _ hr
        exact ⟨r', by rw [hx]; exact hr', hp⟩
    · exact ⟨r, hr, .refl r⟩
  fades k r r' hr hr' := by
    rw [reference?_modifyHeap] at hr'
    split at hr'
    · next he =>
        subst he
        obtain ⟨x, hx, hr⟩ := Option.bind_eq_some_iff.mp hr
        rw [hx] at hr'
        exact (h x hx).fades _ _ _ hr hr'
    · rw [hr] at hr'
      cases hr'
      exact .inl rfl

end Core

theorem Core.Extends.routes (h : c.Extends c') (hk : c.Routes k q) : c'.Routes k q := by
  obtain ⟨r, hr, hq⟩ := hk
  obtain ⟨r', hr', hp⟩ := h.references k r hr
  exact ⟨r', hr', hp.queue.trans hq⟩

theorem Core.Extends.cleared (h : c.Extends c') (hk : c.Cleared k) : c'.Cleared k := by
  obtain ⟨r, hr, hnone⟩ := hk
  obtain ⟨r', hr', -⟩ := h.references k r hr
  exact ⟨r', hr', (h.fades k r r' hr hr').elim (fun hsame => hsame.trans hnone) fun h => h⟩

theorem Task.Fits.mono (h : c.Extends c') {task : Task} (ht : task.Fits c) : task.Fits c' := by
  have hroute : ∀ k q, c.Routes k q → c'.Routes k q := fun _ _ => h.routes
  have hcleared : ∀ k, c.Cleared k → c'.Cleared k := fun _ => h.cleared
  have hcells := h.cells
  unfold Task.Fits at ht ⊢
  split <;> simp_all <;> omega

namespace Heap.Progresses

variable {limit : Nat} {x x' : Heap Finalizer}

theorem of_references (h : x'.references = x.references) : x.Progresses limit x' where
  forward i r hr := ⟨r, by rw [h]; exact hr, .refl r⟩
  fades i r r' hr hr' := by
    rw [h, hr] at hr'
    cases hr'
    exact .inl rfl
  backward i r' hr' q hq := .inr ⟨r', by rw [← h]; exact hr', hq⟩

theorem updateReference (hg : ∀ r, x.references[i]? = some r → r.Precedes (g r))
    (hf : ∀ r : Reference, r.Fades (g r)) : x.Progresses limit (x.updateReference i g) where
  forward j r hr := by
    unfold Heap.updateReference
    rw [Array.getElem?_modify]
    split
    · next hij =>
        subst hij
        exact ⟨g r, by rw [hr]; rfl, hg r hr⟩
    · exact ⟨r, hr, .refl r⟩
  fades j r r' hr hr' := by
    unfold Heap.updateReference at hr'
    rw [Array.getElem?_modify, hr] at hr'
    split at hr' <;> cases hr'
    · exact hf r
    · exact .inl rfl
  backward j r' hr' q hq := by
    unfold Heap.updateReference at hr'
    rw [Array.getElem?_modify] at hr'
    split at hr'
    · next hij =>
        subst hij
        obtain ⟨r, hr, rfl⟩ := Option.map_eq_some_iff.mp hr'
        exact .inr ⟨r, hr, (hg r hr).queue.symm.trans hq⟩
    · exact .inr ⟨r', hr', hq⟩

theorem newReference {id i : Nat} {kind : ReferenceKind} {r : Root} {queue : Option Nat}
    (hn : x.newReference id kind r queue = .ok (i, x')) (hq : ∀ q, queue = some q → q < limit) :
    x.Progresses limit x' := by
  unfold Heap.newReference at hn
  split at hn <;> cases hn
  constructor
  · intro j r' hr'
    have hj : j < x.references.size := (Array.getElem?_eq_some_iff.mp hr').1
    exact ⟨r', by simp only [Array.getElem?_push, if_neg (Nat.ne_of_lt hj), hr'], .refl r'⟩
  · intro j r₀ r' hr₀ hr'
    have hj : j < x.references.size := (Array.getElem?_eq_some_iff.mp hr₀).1
    simp only [Array.getElem?_push, if_neg (Nat.ne_of_lt hj), hr₀] at hr'
    cases hr'
    exact .inl rfl
  · intro j r' hr' q hq'
    simp only [Array.getElem?_push] at hr'
    split at hr'
    · cases hr'
      exact .inl (hq q hq')
    · exact .inr ⟨r', hr', hq'⟩

theorem precedes_afterPending (r : Reference) (n : Nat) : r.Precedes (afterPending r n) := by
  unfold afterPending Reference.makePending
  split
  · exact .refl r
  · split
    · next hs => exact ⟨rfl, rfl, rfl, by simp [hs, ReferenceStage.rank]⟩
    · exact ⟨rfl, rfl, rfl, le_rfl⟩

theorem fades_afterPending (r : Reference) (n : Nat) : r.Fades (afterPending r n) := by
  unfold afterPending Reference.makePending
  split
  · exact .inl rfl
  · split
    · exact .inr rfl
    · exact .inl rfl

theorem pause (settings : Settings) (reason : Reason) :
    x.Progresses limit (x.pause settings reason).heap where
  forward i r hr := by
    rw [references_pause, getElem?_makePending, hr]
    exact ⟨_, rfl, precedes_afterPending r _⟩
  fades i r r' hr hr' := by
    rw [references_pause, getElem?_makePending, hr] at hr'
    cases hr'
    exact fades_afterPending r _
  backward i r' hr' q hq := by
    rw [references_pause, getElem?_makePending] at hr'
    obtain ⟨r, hr, rfl⟩ := Option.map_eq_some_iff.mp hr'
    exact .inr ⟨r, hr, (precedes_afterPending r _).queue.symm.trans hq⟩

end Heap.Progresses

theorem Reference.precedes_inactive (r : Reference) : r.Precedes { r with stage := .inactive } :=
  ⟨rfl, rfl, rfl, by cases r.stage <;> simp [ReferenceStage.rank]⟩

namespace Core

variable {c : Core} {e : Nat} {f : Heap Finalizer → Heap Finalizer}

theorem Regular.modifyHeap (hc : c.Regular)
    (h : ∀ x, c.heaps[e]? = some x → x.Progresses c.lines.size (f x)) :
    (c.modifyHeap e f).Regular where
  typed := hc.typed
  fits t s hs task ht := (hc.fits t s hs task ht).mono (.modifyHeap h)
  distinct := hc.distinct
  routed k r q hr hq := by
    rw [reference?_modifyHeap] at hr
    split at hr
    · next he =>
        subst he
        obtain ⟨x, hx, hr⟩ := Option.bind_eq_some_iff.mp hr
        rcases (h x hx).backward _ _ hr q hq with hlt | ⟨r₀, hr₀, hq₀⟩
        · exact hlt
        · exact hc.routed k r₀ q (by unfold reference?; rw [hx]; exact hr₀) hq₀
    · exact hc.routed k r q hr hq
  named := hc.named

theorem Extends.of_lines {lines : Array Line} (h : c.lines.size ≤ lines.size) :
    c.Extends { c with lines := lines } where
  cells := le_rfl
  lines := h
  references _ r hr := ⟨r, hr, .refl r⟩
  fades _ r r' hr hr' := by
    cases hr.symm.trans hr'
    exact .inl rfl

theorem Regular.of_lines {lines : Array Line} (hc : c.Regular) (h : c.lines.size ≤ lines.size) :
    ({ c with lines := lines } : Core).Regular where
  typed := hc.typed
  fits t s hs task ht := (hc.fits t s hs task ht).mono (Extends.of_lines h)
  distinct := hc.distinct
  routed k r q hr hq := (hc.routed k r q hr hq).trans_le h
  named b hb := (hc.named b hb).trans_le h

theorem reference?_of_addHeap (hr : c.reference? h = some r) :
    ({ c with cells := c.cells.push x } : Core).reference? h = some r := by
  obtain ⟨y, hy, hr⟩ := Option.bind_eq_some_iff.mp hr
  have hlt : h.heap < (c.cells.map Cell.heap).size := (Array.getElem?_eq_some_iff.mp hy).1
  unfold reference? heaps
  rw [Array.map_push, Array.getElem?_push, if_neg (Nat.ne_of_lt hlt)]
  exact Option.bind_eq_some_iff.mpr ⟨y, hy, hr⟩

theorem Extends.addHeap : c.Extends { c with cells := c.cells.push x } where
  cells := by simp
  lines := le_rfl
  references h r hr := ⟨r, reference?_of_addHeap hr, .refl r⟩
  fades h r r' hr hr' := by
    rw [reference?_of_addHeap hr] at hr'
    cases hr'
    exact .inl rfl

theorem Regular.addHeap (hc : c.Regular) (hx : x.heap.references = #[]) :
    ({ c with cells := c.cells.push x } : Core).Regular where
  typed := hc.typed
  fits t s hs task ht := (hc.fits t s hs task ht).mono Extends.addHeap
  distinct := hc.distinct
  routed k r q hr hq := by
    obtain ⟨y, hy, hr⟩ := Option.bind_eq_some_iff.mp hr
    unfold heaps at hy
    rw [Array.map_push, Array.getElem?_push] at hy
    split at hy
    · cases hy
      simp [hx] at hr
    · exact hc.routed k r q (Option.bind_eq_some_iff.mpr ⟨y, hy, hr⟩) hq
  named := hc.named

end Core

namespace Act

variable {c c' : Core} {p p' : Multiset Asset} {deeds : List Deed}

theorem progress (h : Act L c p deeds c' p') : c.Extends c' ∧ (c.Regular → c'.Regular) := by
  -- a change of one heap: it is enough to look at its references
  have onHeap : ∀ {e f},
      (∀ x, c.heaps[e]? = some x → x.Progresses c.lines.size (f x)) →
        c.Extends (c.modifyHeap e f) ∧ (c.Regular → (c.modifyHeap e f).Regular) :=
    fun hf => ⟨.modifyHeap hf, fun hc => hc.modifyHeap hf⟩
  have onReference : ∀ {k g}, (∀ r, c.reference? k = some r → r.Precedes (g r)) →
      (∀ r : Reference, r.Fades (g r)) → ∀ x, c.heaps[k.heap]? = some x →
      x.Progresses c.lines.size (x.updateReference k.position g) := by
    intro k g hg hf x hx
    exact .updateReference (fun r hr => hg r (Option.bind_eq_some_iff.mpr ⟨x, hx, hr⟩)) hf
  cases h with
  | transfer heaps lines regular => exact ⟨.of_heaps heaps lines, regular⟩
  | makeHeap => exact ⟨.addHeap, fun hc => hc.addHeap rfl⟩
  | makeLine | dequeue => exact ⟨.of_lines (by simp), fun hc => hc.of_lines (by simp)⟩
  | fetch | clone | drop | finish | write | store => exact onHeap fun x _ => .of_references rfl
  | refer hx hn _ hq =>
    refine onHeap fun y hy => ?_
    rw [hx] at hy
    cases hy
    exact .newReference hn hq
  | adjust k g hg =>
    exact onHeap (onReference (fun r _ => ⟨(hg r).id, (hg r).kind, (hg r).queue,
        (congrArg _ (hg r).stage).ge⟩) fun r => (hg r).referent)
  | settle => exact onHeap (onReference (fun r _ => r.precedes_inactive) fun _ => .inl rfl)
  | claim hr _ hs =>
    refine onHeap (onReference (fun r' hr' => ⟨rfl, rfl, rfl, ?_⟩) fun _ => .inl rfl)
    rw [hr] at hr'
    cases hr'
    rcases hs with hs | hs <;> simp [hs, ReferenceStage.rank]
  | retain | release | discharge =>
    exact onHeap (onReference (fun r _ => ⟨rfl, rfl, rfl, le_rfl⟩) fun _ => .inl rfl)
  | enqueue q k =>
    obtain ⟨hext, hreg⟩ := onHeap (onReference (g := fun r => { r with handles := r.handles + 1 })
      (fun r _ => ⟨rfl, rfl, rfl, le_rfl⟩) fun _ => .inl rfl)
    have hsize : c.lines.size ≤
        (c.lines.modify q fun l => ⟨l.entries ++ [k], l.enqueued + 1⟩).size := by simp
    exact ⟨⟨hext.cells, hsize, hext.references, hext.fades⟩, fun hc => (hreg hc).of_lines hsize⟩
  | pause => exact onHeap fun x _ => .pause _ _
  | bind | unbind | run | discard => exact ⟨.of_heaps rfl rfl, fun hc => hc⟩

end Act

theorem Core.Extends.trans {c₁ c₂ : Core} (h : c.Extends c₁) (h' : c₁.Extends c₂) :
    c.Extends c₂ where
  cells := h.cells.trans h'.cells
  lines := h.lines.trans h'.lines
  references k r hr := by
    obtain ⟨r₁, hr₁, hp⟩ := h.references k r hr
    obtain ⟨r₂, hr₂, hp'⟩ := h'.references k r₁ hr₁
    exact ⟨r₂, hr₂, hp.trans hp'⟩
  fades k r r₂ hr hr₂ := by
    obtain ⟨r₁, hr₁, -⟩ := h.references k r hr
    exact (h.fades k r r₁ hr hr₁).trans (h'.fades k r₁ r₂ hr₁ hr₂)

theorem Acts.progress (h : Acts L c p deeds c' p') : c.Extends c' ∧ (c.Regular → c'.Regular) := by
  induction h with
  | nil => exact ⟨.of_heaps rfl rfl, fun hc => hc⟩
  | cons first _ ih =>
    obtain ⟨hext, hreg⟩ := first.progress
    exact ⟨hext.trans ih.1, fun hc => ih.2 (hreg hc)⟩

theorem Acts.invariant {P : Core → Multiset Asset → List Deed → Prop}
    (step : ∀ {c c' p p' deeds past}, c.Regular → Act L c p deeds c' p' → P c p past →
      P c' p' (past ++ deeds)) {past : List Deed} (h : Acts L c p deeds c' p') (hc : c.Regular)
    (hp : P c p past) : P c' p' (past ++ deeds) := by
  induction h generalizing past with
  | nil => rwa [List.append_nil]
  | cons first _ ih =>
    rw [← List.append_assoc]
    exact ih (first.progress.2 hc) (step hc first hp)

namespace Core

variable {c : Core} {t e : Nat}

theorem exists_assets_threads (hs : c.threads[t]? = some s) (f : Stack → Stack) :
    ∃ rest, c.assets = s.assets + rest ∧
    ({ c with threads := c.threads.modify t f } : Core).assets = (f s).assets + rest := by
  obtain ⟨rest, h, h'⟩ := exists_total_modify hs f Stack.assets
  refine ⟨c.bindings.assets + total c.lines (fun x => x.entries.map Asset.handle) +
    (total c.channels (fun x => x.flatMap Message.assets) + rest), ?_, ?_⟩
  · rw [assets, h]
    abel
  · rw [assets, h']
    simp only [channels]
    abel

theorem exists_assets_channel (hx : c.cells[e]? = some x) (messages : List (Message Finalizer)) :
    ∃ rest, c.assets = ↑(x.channel.flatMap Message.assets) + rest ∧
      (c.setChannel e messages).assets = ↑(messages.flatMap Message.assets) + rest := by
  have hch : c.channels[e]? = some x.channel := by simp [channels, hx]
  have hset : (c.setChannel e messages).channels = c.channels.modify e fun _ => messages := by
    unfold channels setChannel
    dsimp only
    apply map_modify
    intro x
    rfl
  obtain ⟨rest, h, h'⟩ := exists_total_modify hch (fun _ => messages)
    fun x => (↑(x.flatMap Message.assets) : Multiset Asset)
  refine ⟨c.bindings.assets + total c.lines (fun x => x.entries.map Asset.handle) +
    (rest + total c.threads Stack.assets), ?_, ?_⟩
  · rw [assets, h]
    abel
  · rw [assets, hset, h']
    simp only [setChannel]
    abel

@[simp]
theorem heaps_setChannel (messages : List (Message Finalizer)) :
    (c.setChannel e messages).heaps = c.heaps := by
  have h : (c.setChannel e messages).heaps = c.heaps.modify e fun x => x := by
    unfold heaps setChannel
    dsimp only
    apply map_modify
    intro x
    rfl
  rw [h, modify_eq_self fun _ _ => rfl]

theorem Regular.of_heaps (hc : c.Regular) (heaps : c'.heaps = c.heaps) (lines : c'.lines = c.lines)
    (hthreads : ∀ (t : Nat) s, c'.threads[t]? = some s → (need s.tasks).isSome = true ∧
      ∀ task ∈ s.tasks, task.Fits c) (hdistinct : c'.bindings.Distinct)
    (hnamed : ∀ b ∈ c'.bindings.queues, b.2 < c.lines.size) : c'.Regular where
  typed t s hs := (hthreads t s hs).1
  fits t s hs task ht := ((hthreads t s hs).2 task ht).mono (.of_heaps heaps lines)
  distinct := hdistinct
  routed h r q hr hq := by
    rw [lines]
    exact hc.routed h r q (by unfold reference? at hr ⊢; rwa [heaps] at hr) hq
  named b hb := by rw [lines]; exact hnamed b hb

theorem Regular.threads (hc : c.Regular) (h : ∀ s, c.threads[t]? = some s →
      (need (f s).tasks).isSome = true ∧ ∀ task ∈ (f s).tasks, task.Fits c) :
    ({ c with threads := c.threads.modify t f } : Core).Regular := by
  refine hc.of_heaps rfl rfl (fun u s hs => ?_) hc.distinct hc.named
  rw [Array.getElem?_modify] at hs
  split at hs
  · next htu =>
      subst htu
      obtain ⟨s₀, hs₀, rfl⟩ := Option.map_eq_some_iff.mp hs
      exact h s₀ hs₀
  · exact ⟨hc.typed u s hs, hc.fits u s hs⟩

end Core

namespace Acts

variable {c : Core} {p p' : Multiset Asset} {t e : Nat} {tasks : List Task} {n : Need}

theorem take (hs : c.threads[t]? = some ⟨task :: rest, reply⟩) (hn : need (task :: rest) = some n) :
    Acts L c p [] (c.setStack t ⟨rest, .unit⟩) (↑task.assets + ↑(n.value reply) + p) := by
  obtain ⟨others, h, h'⟩ := c.exists_assets_threads hs fun _ => ⟨rest, .unit⟩
  obtain ⟨m, hm, -⟩ : ∃ m, need rest = some m ∧ task.role.before m = some n :=
    Option.bind_eq_some_iff.mp hn
  refine single (.transfer rfl rfl (fun hc => hc.threads fun s hs' => ?_) ?_)
  · rw [hs] at hs'
    cases hs'
    exact ⟨by rw [hm]; rfl, fun k hk => hc.fits t _ hs k (List.mem_cons_of_mem _ hk)⟩
  · rw [h, Core.setStack, h', Stack.assets_eq hm, Stack.assets_eq hn, Need.value_unit,
      List.flatMap_cons, ← Multiset.coe_add, Multiset.coe_nil]
    abel

/-- What is in the hand becomes the value of the call that has ended. -/
theorem put (hs : c.threads[t]? = some ⟨tasks, .unit⟩) (hn : need tasks = some n) (reply : Reply) :
    Acts L c (↑(n.value reply) + p) [] (c.setStack t ⟨tasks, reply⟩) p := by
  obtain ⟨others, h, h'⟩ := c.exists_assets_threads hs fun _ => ⟨tasks, reply⟩
  refine single (.transfer rfl rfl (fun hc => hc.threads fun s hs' => ?_) ?_)
  · exact ⟨by rw [hn]; rfl, fun task ht => hc.fits t _ hs task ht⟩
  · rw [h, Core.setStack, h', Stack.assets_eq hn, Stack.assets_eq hn, Need.value_unit,
      Multiset.coe_nil]
    abel

theorem push (hs : c.threads[t]? = some ⟨rest, .unit⟩) (hn : need rest = some n)
    (hm : needs tasks n = some m) (hf : ∀ task ∈ tasks, task.Fits c) :
    Acts L c (↑(tasks.flatMap Task.assets) + p) [] (c.push t tasks) p := by
  obtain ⟨others, h, h'⟩ := c.exists_assets_threads hs fun s => { s with tasks := tasks ++ s.tasks }
  have hneed : need (tasks ++ rest) = some m := by
    rw [need, needs_append]
    exact Option.bind_eq_some_iff.mpr ⟨n, hn, hm⟩
  refine single (.transfer rfl rfl (fun hc => hc.threads fun s' hs' => ?_) ?_)
  · rw [hs] at hs'
    cases hs'
    refine ⟨by rw [hneed]; rfl, fun task ht => ?_⟩
    rcases List.mem_append.mp ht with ht | ht
    · exact hf task ht
    · exact hc.fits t _ hs task ht
  · rw [h, Core.push, h', Stack.assets_eq hneed, Stack.assets_eq hn, Need.value_unit,
      Need.value_unit, List.flatMap_append, ← Multiset.coe_add, Multiset.coe_nil]
    abel

/-- The messages of a channel are exchanged for others. -/
theorem setChannel (hx : c.cells[e]? = some x)
    (ho : ↑(messages.flatMap Message.assets) + p' = ↑(x.channel.flatMap Message.assets) + p) :
    Acts L c p [] (c.setChannel e messages) p' := by
  obtain ⟨others, h, h'⟩ := c.exists_assets_channel hx messages
  refine single (.transfer (by simp) rfl (fun hc => ?_) ?_)
  · exact hc.of_heaps (by simp) rfl (fun t s hs =>
      ⟨hc.typed t s hs, hc.fits t s hs⟩) hc.distinct hc.named
  · rw [h, h', add_right_comm, ho, add_right_comm]

theorem rename (hd : c.bindings.Distinct → b.Distinct)
    (hq : ∀ x ∈ b.queues, x ∈ c.bindings.queues ∨ x.2 < c.lines.size)
    (ho : b.assets + p' = c.bindings.assets + p) : Acts L c p [] { c with bindings := b } p' := by
  refine single (.transfer rfl rfl (fun hc => ?_) ?_)
  · refine hc.of_heaps rfl rfl (fun t s hs => ⟨hc.typed t s hs, hc.fits t s hs⟩) (hd hc.distinct)
      fun x hx => ?_
    exact (hq x hx).elim (hc.named x) fun h => h
  · have hsplit : ∀ d : Bindings, ({ c with bindings := d } : Core).assets = d.assets +
        (total c.lines (fun x => ↑(x.entries.map Asset.handle)) + (total c.channels (fun x =>
          ↑(x.flatMap Message.assets)) + total c.threads Stack.assets)) := fun d => add_assoc _ _ _
    rw [hsplit b, add_right_comm, ho, add_right_comm]
    exact congrArg (· + p) (hsplit c.bindings).symm

theorem spawn (reply : Reply) (hn : need tasks = some .nothing) (hf : ∀ task ∈ tasks, task.Fits c)
    (ha : tasks.flatMap Task.assets = []) :
    Acts L c p [] { c with threads := c.threads.push ⟨tasks, reply⟩ } p := by
  refine single (.transfer rfl rfl (fun hc => ?_) ?_)
  · refine hc.of_heaps rfl rfl (fun t s hs => ?_) hc.distinct hc.named
    rw [Array.getElem?_push] at hs
    split at hs
    · cases hs
      exact ⟨by rw [hn]; rfl, hf⟩
    · exact ⟨hc.typed t s hs, hc.fits t s hs⟩
  · have h : (⟨tasks, reply⟩ : Stack).assets = 0 := by simp [Stack.assets_eq hn, ha]
    simp only [Core.assets, Core.channels, total_push, h, add_zero]

/-- A thread without tasks is given some that own nothing. -/
theorem assign (hs : c.threads[t]? = some ⟨[], reply⟩) (hn : need tasks = some .nothing)
    (hf : ∀ task ∈ tasks, task.Fits c) (ha : tasks.flatMap Task.assets = []) :
    Acts L c p [] (c.setStack t ⟨tasks, reply⟩) p := by
  obtain ⟨others, h, h'⟩ := c.exists_assets_threads hs fun _ => ⟨tasks, reply⟩
  refine single (.transfer rfl rfl (fun hc => hc.threads fun s hs' => ?_) ?_)
  · exact ⟨by rw [hn]; rfl, hf⟩
  · rw [h, Core.setStack, h', Stack.assets_eq hn, Stack.assets_nil, ha]
    rfl

end Acts

end ManagedHeap
