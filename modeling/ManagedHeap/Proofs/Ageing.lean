import ManagedHeap.Proofs.Clearing

/-!
# Ageing

**Input.**  A run, and a soft reference.

**Algorithm.**  The age of a reference is counted along the run: it is zero when the reference is
made, and again whenever its object is asked for and given; it grows by one when its heap is
collected.  Nothing else touches it.

**Results.**  The clock of a heap is ahead of the stamp of a soft reference by exactly its age.  A
collection that is neither an emergency nor finds the heap too full keeps a soft reference to an
object that nothing else keeps as long as its age is below the limit, and clears it from then on:
`World.agesSoftly_after`.
-/

namespace ManagedHeap

/-- What happens to the stamps of references while a heap is not collected: the clock stands still,
and a reference with a new stamp is new itself or was used. -/
structure Heap.Stamps (used : Nat → Prop) (x x' : Heap Finalizer) : Prop where
  clock : x'.clock = x.clock
  size : x.references.size ≤ x'.references.size
  stamp : ∀ (i : Nat) (r' : Reference), x'.references[i]? = some r' →
    (∃ r, x.references[i]? = some r ∧ r'.lastAccess = r.lastAccess) ∨
      r'.lastAccess = x'.clock ∧ (x.references[i]? = none ∨ used i)

namespace Heap.Stamps

variable {used : Nat → Prop} {x x' x'' : Heap Finalizer}

theorem of_references (hr : x'.references = x.references) (hc : x'.clock = x.clock) :
    x.Stamps used x' :=
  ⟨hc, by rw [hr], fun i r' h => .inl ⟨r', by rw [← hr]; exact h, rfl⟩⟩

theorem trans (h : x.Stamps used x') (h' : x'.Stamps used x'') : x.Stamps used x'' where
  clock := h'.clock.trans h.clock
  size := h.size.trans h'.size
  stamp i r₂ hr₂ := by
    rcases h'.stamp i r₂ hr₂ with ⟨r₁, hr₁, hsame⟩ | ⟨hnow, hnone | hused⟩
    · rcases h.stamp i r₁ hr₁ with ⟨r, hr, hold⟩ | ⟨hnow, hwhy⟩
      · exact .inl ⟨r, hr, hsame.trans hold⟩
      · exact .inr ⟨hsame.trans (hnow.trans h'.clock.symm), hwhy⟩
    · have hsize := h.size
      rw [Array.getElem?_eq_none_iff] at hnone
      exact .inr ⟨hnow, .inl (Array.getElem?_eq_none (by omega))⟩
    · exact .inr ⟨hnow, .inr hused⟩

theorem updateReference
    (hg : ∀ r : Reference, (g r).lastAccess = r.lastAccess ∨ used j ∧ (g r).lastAccess = x.clock) :
    x.Stamps used (x.updateReference j g) where
  clock := rfl
  size := (Array.size_modify ..).ge
  stamp i r' hr' := by
    unfold Heap.updateReference at hr'
    rw [Array.getElem?_modify] at hr'
    split at hr'
    · next hij =>
        subst hij
        obtain ⟨r, hr, rfl⟩ := Option.map_eq_some_iff.mp hr'
        exact (hg r).elim (fun hsame => .inl ⟨r, hr, hsame⟩) fun h => .inr ⟨h.2, .inr h.1⟩
    · exact .inl ⟨r', hr', rfl⟩

theorem newReference {id i : Nat} {kind : ReferenceKind} {r : Root} {queue : Option Nat}
    (hn : x.newReference id kind r queue = .ok (i, x')) : x.Stamps used x' := by
  unfold Heap.newReference at hn
  split at hn <;> cases hn
  refine ⟨rfl, by simp, fun j r' hr' => ?_⟩
  simp only [Array.getElem?_push] at hr'
  split at hr'
  · next hj =>
      cases hr'
      exact .inr ⟨rfl, .inl (Array.getElem?_eq_none hj.ge)⟩
  · exact .inl ⟨r', hr', rfl⟩

end Heap.Stamps

namespace Core

variable {c : Core} {e k : Nat} {f : Heap Finalizer → Heap Finalizer} {used : Nat → Prop}

/-- A heap, as if it had been there empty before it was made. -/
def heapAt (c : Core) (e : Nat) : Heap Finalizer := (c.heaps[e]?).getD (Heap.empty e 0)

theorem heapAt_of_some (hx : c.heaps[e]? = some x) : c.heapAt e = x := by rw [heapAt, hx]; rfl

theorem stamps_modifyHeap (hf : k = e → ∀ x, c.heaps[e]? = some x → x.Stamps used (f x)) :
    (c.heapAt e).Stamps used ((c.modifyHeap k f).heapAt e) := by
  unfold heapAt
  rw [heaps_modifyHeap, Array.getElem?_modify]
  split
  · next hk =>
      subst hk
      cases hx : c.heaps[k]? with
      | none => exact .of_references rfl rfl
      | some x => exact hf rfl x hx
  · exact .of_references rfl rfl

theorem stamps_updateReference {h : Handle} {g : Reference → Reference}
    (hg : ∀ r : Reference, (g r).lastAccess = r.lastAccess) :
    (c.heapAt e).Stamps used ((c.modifyHeap h.heap (·.updateReference h.position g)).heapAt e) :=
  stamps_modifyHeap fun _ _ _ => .updateReference fun r => .inl (hg r)

end Core

section Acts

variable {L : Licence} {c c' : Core} {p p' : Multiset Asset} {deeds : List Deed} {e : Nat}

theorem Act.stamps (h : Act L c p deeds c' p') (hd : .paused e ∉ deeds) :
    (c.heapAt e).Stamps (fun i => L.accesses ⟨e, i⟩) (c'.heapAt e) := by
  cases h with
  | transfer heaps =>
    exact .of_references (by rw [Core.heapAt, heaps]; rfl) (by rw [Core.heapAt, heaps]; rfl)
  | makeHeap capacity =>
    have hheap :
        ({ c with cells := c.cells.push ⟨Heap.empty c.cells.size capacity, []⟩ } : Core).heaps[e]? =
        if e = c.cells.size then some (Heap.empty c.cells.size capacity) else c.heaps[e]? := by
      simp [Core.heaps, Array.getElem?_push]
    unfold Core.heapAt
    rw [hheap]
    split
    · next he =>
        subst he
        rw [Array.getElem?_eq_none (by simp [Core.heaps])]
        exact .of_references rfl rfl
    · exact .of_references rfl rfl
  | makeLine | bind | unbind | run | discard | dequeue => exact .of_references rfl rfl
  | fetch | clone | drop | finish | write | store =>
    exact Core.stamps_modifyHeap fun _ _ _ => .of_references rfl rfl
  | refer hx hn =>
    refine Core.stamps_modifyHeap fun he y hy => ?_
    subst he
    cases hx.symm.trans hy
    exact .newReference hn
  | adjust k g hg ha =>
    refine Core.stamps_modifyHeap fun he y hy => ?_
    subst he
    exact .updateReference (ha y hy)
  | settle | claim | retain | release | discharge => exact Core.stamps_updateReference fun _ => rfl
  | @enqueue _ q k => exact Core.stamps_updateReference fun _ => rfl
  | pause =>
    refine Core.stamps_modifyHeap fun he => ?_
    subst he
    exact (hd List.mem_cons_self).elim

theorem Acts.stamps (h : Acts L c p deeds c' p') (hd : .paused e ∉ deeds) :
    (c.heapAt e).Stamps (fun i => L.accesses ⟨e, i⟩) (c'.heapAt e) := by
  induction h with
  | nil => exact .of_references rfl rfl
  | cons first _ ih =>
    rw [List.mem_append, not_or] at hd
    exact (first.stamps hd.1).trans (ih hd.2)

end Acts

namespace Heap

variable {h : Heap Finalizer} {settings : Settings} {reason : Reason} {i : Nat} {r : Reference}
  {id : ObjectId}

/-- Whether roots fill so much of a heap that soft references are given up. -/
def isCrowded (h : Heap Finalizer) (settings : Settings) : Bool :=
  (settings.softRefClearThreshold.toFormat .double).le
    ((Numeral.Format.double.ofNat (Trace.markRoots h.space).bytes).div .double
      (Numeral.Format.double.ofNat h.space.capacity))

/-- What roots and the objects of the soft references reach that a pause retains, one reference left
out. -/
def HeldBeside (h : Heap Finalizer) (settings : Settings) (reason : Reason) (i : Nat)
    (id : ObjectId) : Prop :=
  h.space.Reach (fun x => Trace.Rooted h.space x ∨ ∃ j r, j ≠ i ∧ (j, r) ∈ h.tracked ∧
    r.kind = .soft ∧ r.referent = some x ∧ (h.softPolicy settings reason).gives r = false) id

theorem gives_eq_false_iff (hlru : 0 < settings.softRefLruCycles) :
    (h.softPolicy settings reason).gives r = false ↔ reason.isEmergency = false ∧
    h.isCrowded settings = false ∧ h.clock - r.lastAccess < settings.softRefLruCycles := by
  unfold softPolicy SoftPolicy.ofSettings SoftPolicy.gives isCrowded
  simp only [Bool.or_eq_false_iff, Bool.and_eq_false_iff, decide_eq_false_iff_not, Nat.not_le,
    and_assoc]
  exact and_congr_right fun _ => and_congr_right fun _ =>
    ⟨fun hor => hor.resolve_left (not_not.mpr hlru), .inr⟩

theorem heldBeside_of_held (hr : (i, r) ∈ h.tracked)
    (hgives : (h.softPolicy settings reason).gives r = true)
    (hheld : h.Held settings reason id) : h.HeldBeside settings reason i id := by
  refine Space.Reach.mono ?_ hheld
  rintro x (hroot | ⟨j, q, hq, hsoft, hx, hkeeps⟩)
  · exact .inl hroot
  · refine .inr ⟨j, q, ?_, hq, hsoft, hx, hkeeps⟩
    rintro rfl
    obtain rfl := eq_of_mem_tracked hr hq
    rw [hgives] at hkeeps
    cases hkeeps

/-- **A soft reference to an object that nothing else keeps goes by the policy alone.** -/
theorem getElem?_pause_of_soft (ht : h.Tidy) (hk : h.Tracks)
    (ho : h.Orderly) (hr : h.references[i]? = some r)
    (htracked : r.isTracked = true) (hsoft : r.kind = .soft) (hid : r.referent = some id)
    (halone : ¬h.HeldBeside settings reason i id) : (h.pause settings reason).heap.references[i]? =
      some (if (h.softPolicy settings reason).gives r = false then r else r.pended) := by
  have hclears : i ∈ (h.pause settings reason).pending ↔ h.Clears settings reason r id :=
    mem_pending_iff ht hk hr htracked hid
  simp only [Clears, hsoft] at hclears
  cases hgives : (h.softPolicy settings reason).gives r with
  | false =>
    rw [if_pos rfl, getElem?_pause_of_not_mem, hr]
    rw [hclears, hgives]
    exact fun h => Bool.false_ne_true h.1
  | true =>
    rw [if_neg Bool.true_eq_false_eq_False, getElem?_pause_of_mem ho hr]
    exact hclears.mpr ⟨hgives, fun hheld =>
      halone (heldBeside_of_held (mem_tracked_of_isTracked hk hr htracked) hgives hheld)⟩

theorem lastAccess_pause (hr : h.references[i]? = some r)
    (hr' : (h.pause settings reason).heap.references[i]? = some r') :
    r'.lastAccess = r.lastAccess := by
  rw [references_pause, getElem?_makePending, hr] at hr'
  cases hr'
  dsimp only
  unfold afterPending Reference.makePending
  split
  · rfl
  · dsimp only
    split <;> rfl

end Heap

namespace World

variable {w w' : World} {t : Nat} {k : Handle} {m : Move} {x : Runtime}

section Ages

def aged (w : World) (k : Handle) (age : Nat) (m : Move) : Nat :=
  if (w.reference? k).isNone ∨
    w.got? m = some k then 0 else if .paused k.heap ∈ w.deeds m then age + 1 else age

def ageFrom (w : World) (k : Handle) (age : Nat) : List Move → Nat
  | [] => age
  | m :: rest => (w.move m).ageFrom k (w.aged k age m) rest

/-- The age of a reference after moves: how often its heap has been collected since the reference
was made or its object was last got. -/
def age (w : World) (k : Handle) (moves : List Move) : Nat := w.ageFrom k 0 moves

theorem reference?_eq_heapAt : w.reference? k = (w.core.heapAt k.heap).references[k.position]? := by
  unfold reference? Core.heapAt
  cases hx : w.engines[k.heap]? with
  | none => simp [Core.heaps, core, hx, Heap.empty]
  | some x => rw [heaps_core hx]; rfl

/-- Whether the clock of a heap is ahead of the stamp of a soft reference by an age. -/
def Dated (w : World) (k : Handle) (age : Nat) : Prop :=
  ∀ r, w.reference? k = some r → r.kind = .soft → r.lastAccess + age = (w.core.heapAt k.heap).clock

theorem engines_complete (a : Answer) : (w.complete t a).engines = w.engines := by
  unfold complete
  split <;> rfl

/-- After its object was got, a reference is left alone for the rest of the step. -/
theorem stamps_of_asked (hd : w.names.bindings.Distinct) (hasked : w.asked? task = some k)
    (hget : (w.getReferent k).1.isSome = true) (hrun : w.runTask t task = some w') :
    ((w.getReferent k).2.core.heapAt k.heap).Stamps (fun _ => True) (w'.core.heapAt k.heap) := by
  obtain ⟨root, hroot⟩ := Option.isSome_iff_exists.mp hget
  obtain ⟨held, hpair⟩ : ∃ held, w.getReferent k = (some root, held) := ⟨_, Prod.ext hroot rfl⟩
  have hheld : held.names.bindings.Distinct := by
    have hnames := names_getReferent (w := w) k
    rw [hpair] at hnames
    rwa [show held.names = w.names from hnames]
  obtain ⟨r, hr⟩ : ∃ r, w.reference? k = some r := by
    rw [fst_getReferent] at hroot
    obtain ⟨x, hx, hroot⟩ := Option.bind_eq_some_iff.mp hroot
    obtain ⟨r, hr, -⟩ := Heap.exists_of_getReferent hroot
    exact ⟨r, Option.bind_eq_some_iff.mpr ⟨x, hx, hr⟩⟩
  rw [hpair]
  have hacts : ∀ {v : World}, Acts .free (held.openCore t) (.root root ::ₘ 0) [] (v.openCore t) 0 →
      w'.engines = v.engines →
      (held.core.heapAt k.heap).Stamps (fun _ => True) (w'.core.heapAt k.heap) := by
    intro v hacts hsame
    have hheaps : w'.core.heapAt k.heap = (v.openCore t).heapAt k.heap := by
      simp only [Core.heapAt, Core.heaps, core, openCore, Core.mute, hsame]
    rw [hheaps]
    exact hacts.stamps List.not_mem_nil
  unfold asked? at hasked
  split at hasked
  · next reference bind =>
      refine hacts (acts_bindObject? hheld bind root) ?_
      obtain rfl : w.perform t (.getReferent reference bind) = w' := Option.some.inj hrun
      simp [perform, withReference, hasked, hr, hpair, engines_complete]
  · next e job reference rest results =>
      refine hacts (acts_dropRoot root) ?_
      obtain rfl : (w.peekReferent reference).2.push t _ = w' := Option.some.inj hrun
      simp [peekReferent, hasked, hpair, push, modifyThread]
  · next reference bind =>
      refine hacts (acts_bindForeign hheld bind root) ?_
      obtain rfl : w.perform t (.foreign (.getReferent reference bind)) = w' := Option.some.inj hrun
      simp [perform, performForeign, hasked, hpair, engines_complete]
  · cases hasked

theorem lastAccess_of_got (hreg : w.core.Regular) (hgot : w.got? m = some k)
    (hr : w.reference? k = some r) (hsoft : r.kind = .soft)
    (hr' : (w.move m).reference? k = some r') :
    r'.lastAccess = ((w.move m).core.heapAt k.heap).clock := by
  cases m with
  | step t =>
    obtain ⟨hasked, hget⟩ := Option.filter_eq_some_iff.mp hgot
    obtain ⟨task, hnext, hasked⟩ := Option.bind_eq_some_iff.mp hasked
    obtain ⟨y, hy, hhead⟩ := Option.bind_eq_some_iff.mp hnext
    obtain ⟨rest, htasks⟩ := List.head?_eq_some_iff.mp hhead
    obtain ⟨after, hrun⟩ : ∃ after, (w.take t rest).runTask t task = some after := by
      unfold asked? at hasked
      split at hasked
      · exact ⟨_, rfl⟩
      · exact ⟨_, rfl⟩
      · exact ⟨_, rfl⟩
      · cases hasked
    have hmove : (w.move (.step t)).core = after.core := by
      simp only [move, step, hy, htasks, hrun, Option.map_some, Option.getD_some]
      exact core_modifyThread fun _ => rfl
    obtain ⟨x, hx, hposition⟩ := Option.bind_eq_some_iff.mp hr
    have hsome : ((w.take t rest).getReferent k).1.isSome = true := by
      rw [fst_getReferent] at hget ⊢
      exact hget
    have hstamps := stamps_of_asked (w := w.take t rest) hreg.distinct hasked hsome hrun
    have hheap : ((w.take t rest).getReferent k).2.core.heapAt k.heap =
        (x.heap.getReferent k.position).2 := by
      have hx : (w.take t rest).engines[k.heap]? = some x := hx
      refine Core.heapAt_of_some (heaps_core (x :=
          { x with heap := (x.heap.getReferent k.position).2 }) ?_)
      simp only [getReferent, hx]
      simp [modifyHeap, modifyEngine, Array.getElem?_modify, hx]
    rw [fst_getReferent, hx, Option.bind_some] at hget
    rw [reference?_eq_heapAt, hmove] at hr'
    rw [hmove]
    rw [hheap] at hstamps
    rcases Heap.getReferent_cases x.heap k.position with ⟨hnone, -⟩ |
      ⟨id, g, -, -, hgot, -, -, hnow⟩
    · rw [hnone] at hget
      cases hget
    · rcases hstamps.stamp _ r' hr' with ⟨r₁, hr₁, hsame⟩ | ⟨hnow, -⟩
      · rw [hgot] at hr₁ hstamps
        obtain rfl : g r = r₁ := by
          simpa [Heap.pin, Heap.updateReference, Array.getElem?_modify, hposition] using hr₁
        rw [hsame, hnow r hposition hsoft, hstamps.clock]
        rfl
      · exact hnow
  | _ => cases hgot

theorem dated_move (hreg : w.core.Regular) {age : Nat} (h : w.Dated k age) (m : Move) :
    (w.move m).Dated k (w.aged k age m) := by
  intro r' hr' hsoft
  have hkind : ∀ r, w.reference? k = some r → r.kind = .soft := by
    intro r hr
    rw [← reference?_openCore (t := 0)] at hr hr'
    obtain ⟨r₁, hr₁, hp⟩ := (acts_move hreg m).progress.1.references k r hr
    cases hr₁.symm.trans hr'
    exact hp.kind.symm.trans hsoft
  by_cases hpaused : .paused k.heap ∈ w.deeds m
  · obtain ⟨x, reason, hcollects⟩ := exists_collects hpaused
    obtain ⟨x', hx', hafter⟩ := hcollects.heap
    obtain ⟨t, cycle, rest, threads, rfl, hs, -⟩ := hcollects.tasks
    have hgot : w.got? (.step t) = none := by simp [got?, nextTask_of_stackOf hs, asked?]
    rw [reference?, hx', Option.bind_some, hafter] at hr'
    have hsame := hr'
    rw [Heap.references_pause, Heap.getElem?_makePending] at hsame
    obtain ⟨r, hr, -⟩ := Option.map_eq_some_iff.mp hsame
    have hthere : w.reference? k = some r := Option.bind_eq_some_iff.mpr ⟨x, hcollects.engine, hr⟩
    have hdated := h r hthere (hkind r hthere)
    rw [Core.heapAt_of_some (heaps_core hcollects.engine)] at hdated
    rw [aged, if_neg (by simp [hthere, hgot]), if_pos hpaused, Heap.lastAccess_pause hr hr',
      Core.heapAt_of_some (heaps_core hx'), hafter, ← Nat.add_assoc, hdated]
    rfl
  · have hstamps := (acts_move hreg m).stamps hpaused
    rcases hstamps.stamp _ r' (reference?_eq_heapAt.symm.trans hr') with ⟨r, hr, hsame⟩ |
      ⟨hnow, hnone | hused⟩
    · rw [← reference?_eq_heapAt] at hr
      by_cases hgot : w.got? m = some k
      · rw [aged, if_pos (.inr hgot)]
        exact lastAccess_of_got hreg hgot hr (hkind r hr) hr'
      · rw [aged, if_neg (by simp [hr, hgot]), if_neg hpaused, hsame, hstamps.clock]
        exact h r hr (hkind r hr)
    · rw [aged, if_pos (.inl (by rw [reference?_eq_heapAt, hnone]; rfl))]
      exact hnow
    · rw [aged, if_pos (.inr hused)]
      exact hnow

theorem dated_ageFrom (hreg : w.core.Regular) {age : Nat} (h : w.Dated k age) (moves : List Move) :
    (w.after moves).Dated k (w.ageFrom k age moves) := by
  induction moves generalizing w age with
  | nil => exact h
  | cons m rest ih => exact ih ((acts_move hreg m).progress.2 hreg) (dated_move hreg h m)

theorem dated_after (s : EngineSpec) (label : String) (moves : List Move) :
    ((start s label).after moves).Dated k ((start s label).age k moves) := by
  refine dated_ageFrom (regular_after s label []) ?_ moves
  intro r hr _
  rw [reference?_eq_heapAt] at hr
  rcases ((acts_start s label).stamps List.not_mem_nil).stamp _ r hr with ⟨r₀, hr₀, -⟩ | ⟨hnow, -⟩
  · simp [Core.heapAt, Core.heaps, core, Heap.empty] at hr₀
  · exact hnow

end Ages

/-- How soft references age in a world: `age` says how often the heap of a reference has been
collected since the reference was made or its object was last got. -/
structure AgesSoftly (w : World) (age : Handle → Nat) : Prop where
  dated : ∀ (e i : Nat) (x : Runtime) (r : Reference), w.engines[e]? = some x →
    x.heap.references[i]? = some r →
    r.kind = .soft → r.lastAccess ≤ x.heap.clock ∧ x.heap.clock - r.lastAccess = age ⟨e, i⟩
  /-- A collection decides over a soft reference that is in use and to whose object there is no
  other way. -/
  survives : ∀ m e x reason, w.Collects m e x reason → 0 < x.settings.softRefLruCycles →
    ∀ (i : Nat) (r : Reference) (id : ObjectId), x.heap.references[i]? = some r → r.kind = .soft →
    r.isTracked = true → r.referent = some id → ¬x.heap.HeldBeside x.settings reason i id →
    (w.move m).reference? ⟨e, i⟩ =
          if reason.isEmergency = false ∧ x.heap.isCrowded x.settings = false ∧
            age ⟨e, i⟩ < x.settings.softRefLruCycles then some r else some r.pended

/-- **Soft references age.**  After any moves, a collection that is neither an emergency nor crowded
leaves a soft reference that alone leads to its object in use exactly if it is among the first
`softRefLruCycles` collections since the reference was made or its object was last got. -/
theorem agesSoftly_after (s : EngineSpec) (label : String) (moves : List Move) :
    ((start s label).after moves).AgesSoftly fun k => (start s label).age k moves := by
  have hdated : ∀ (e i : Nat) (x : Runtime) (r : Reference),
      ((start s label).after moves).engines[e]? = some x → x.heap.references[i]? = some r →
      r.kind = .soft → r.lastAccess + (start s label).age ⟨e, i⟩ moves = x.heap.clock :=
    fun e i x r hx hr hsoft => by
      have hdated :=
        dated_after s label moves (k := ⟨e, i⟩) r (Option.bind_eq_some_iff.mpr ⟨x, hx, hr⟩) hsoft
      rwa [Core.heapAt_of_some (heaps_core hx)] at hdated
  have hc := coherent_after s label moves
  have ho := orderly_after s label moves
  constructor
  case dated =>
    intro e i x r hx hr hsoft
    have hstamp := hdated e i x r hx hr hsoft
    omega
  case survives =>
    intro m e x reason hcollects hlru i r id hr hsoft htracked hid halone
    have hheap := heaps_core hcollects.engine
    have hstamp := hdated e i x r hcollects.engine hr hsoft
    obtain ⟨x', hx', hafter⟩ := hcollects.heap
    rw [reference?, hx', Option.bind_some, hafter, Heap.getElem?_pause_of_soft (hc.tidy _ _ hheap).2
      (hc.tracking _ _ hheap) (ho _ _ hheap) hr htracked hsoft hid halone, apply_ite some]
    refine if_congr ?_ rfl rfl
    rw [Heap.gives_eq_false_iff hlru, Nat.sub_eq_of_eq_add' hstamp.symm]

end World

end ManagedHeap
