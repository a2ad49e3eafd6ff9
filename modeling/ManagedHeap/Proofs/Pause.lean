import ManagedHeap.Collection.Pause
import ManagedHeap.Proofs.Reach

/-!
# What a pause does

**Input.**  A heap without marks in which the flag for a finalizer says whether there is one.

**Algorithm.**  The phases of a pause one after the other: strong trace, soft references,
finalizers, last trace, sweep.

**Results.**
* `Heap.Held`: what roots and the retained soft references reach; `Heap.Survives`: what these and
  the objects with a finalizer to be run reach.
* `Heap.get?_pause`: what every name finds after a pause.
* `Heap.mem_jobs_pause`, `Heap.mem_discarded_pause`: which finalizers are taken, to be run or to be
dropped.
* `Heap.survives_of_not_lost`: a tracked reference that is not made pending keeps its object.
-/

namespace ManagedHeap

namespace Record

variable {φ : Type}

/-- A record whose finalizer was taken, to be run or to be dropped. -/
def taken (enabled : Bool) (r : Record φ) : Record φ :=
  match r.finalizer with
  | none => { r with header := r.header.scheduleFinalizer }
  | some _ =>
    { r with
      header := if enabled then r.header.scheduleFinalizer
        else r.header.scheduleFinalizer.finishFinalizer
      finalizer := none }

@[simp] theorem taken_fields (enabled : Bool) (r : Record φ) :
    (r.taken enabled).fields = r.fields := by
  unfold taken
  split <;> rfl

@[simp] theorem taken_marked (enabled : Bool) (r : Record φ) :
    (r.taken enabled).header.marked = r.header.marked := by
  unfold taken
  split
  · rfl
  · split <;> rfl

/-- A record whose finalizer waits to be run: it has one more root, that of the job. -/
def scheduled (r : Record φ) : Record φ :=
  { r with header := r.header.scheduleFinalizer, finalizer := none, roots := r.roots + 1 }

end Record

namespace Space

variable {φ : Type} {s : Space φ}

def Unmarked (s : Space φ) : Prop := ∀ id r, s.get? id = some r → r.header.marked = false

/-- The flag for a finalizer says whether there is one. -/
def Mirrored (s : Space φ) : Prop :=
  ∀ id r, s.get? id = some r → r.header.finalizable = r.finalizer.isSome

theorem Unmarked.isMarked (h : s.Unmarked) (id : ObjectId) : s.isMarked id = false := by
  unfold Space.isMarked
  cases hr : s.get? id with
  | none => rfl
  | some r => exact h id r hr

theorem Unmarked.closed (h : s.Unmarked) : s.Closed := by
  intro a b ha
  rw [h.isMarked a] at ha
  cases ha

end Space

namespace Trace

variable {φ : Type} {s : Space φ}

theorem plain_markRoots (s : Space φ) : (markRoots s).space.plain = s.plain := plain_markAll _ _

theorem work_markRoots (s : Space φ) : (markRoots s).work = [] := work_markAll _ _

theorem closed_markRoots (h : s.Unmarked) : (markRoots s).space.Closed :=
  closed_markAll rfl h.closed _

theorem isMarked_markRoots_iff (h : s.Unmarked) (x : ObjectId) :
    (markRoots s).space.isMarked x = true ↔ s.Reach (Rooted s) x := by
  unfold markRoots
  rw [isMarked_markAll_iff rfl h.closed]
  simp only [h.isMarked x, Bool.false_eq_true, false_or]
  constructor
  · exact fun hx => hx.mono fun _ => mem_rooted.mp
  · exact fun hx => hx.mono fun _ => mem_rooted.mpr

section FoldMark

theorem foldl_markFrom {α : Type} (name : α → ObjectId) (l : List α) {t : Trace φ}
    (hw : t.work = []) (hc : t.space.Closed) :
    let t' := l.foldl (fun t a => t.markFrom (name a)) t
    t'.work = [] ∧ t'.space.Closed ∧ t'.space.plain = t.space.plain ∧
      ∀ x, t'.space.isMarked x = true ↔
        t.space.isMarked x = true ∨ t.space.Reach (fun y => ∃ a ∈ l, name a = y) x := by
  induction l generalizing t with
  | nil =>
    refine ⟨hw, hc, rfl, fun x => ⟨Or.inl, ?_⟩⟩
    rintro (h | h)
    · exact h
    · exact h.subset (fun y => t.space.isMarked y = true) (by simp) (fun a b ha hl hb =>
        hc a b ha hl hb)
  | cons a l ih =>
    have hp := plain_markFrom t (name a)
    obtain ⟨hw', hc', hp', hm'⟩ := ih (work_markFrom t (name a)) (closed_markFrom hw hc (name a))
    refine ⟨hw', hc', hp'.trans hp, fun x => ?_⟩
    rw [List.foldl_cons, hm' x, isMarked_markFrom_iff hw hc, Space.reach_iff_of_plain_eq hp,
      or_assoc, ← Space.reach_or_iff]
    have heq : ∀ y, (y = name a ∨ ∃ b ∈ l, name b = y) ↔ ∃ b ∈ a :: l, name b = y := by
      intro y
      simp [eq_comm]
    simp only [heq]

end FoldMark

end Trace

namespace Heap

variable {φ : Type} {s : Space φ}

section Soft

variable {t : Trace φ} (policy : SoftPolicy)

variable (refs : List (Nat × Reference)) (hw : t.work = []) (hc : t.space.Closed)

include policy refs hw hc

/-- What `retainSoft` marks: everything that the soft references kept by the policy name, with all
it reaches. -/
theorem retainSoft_trace : let t' := (retainSoft policy t refs).1
    t'.work = [] ∧ t'.space.Closed ∧ t'.space.plain = t.space.plain ∧
      ∀ x, t'.space.isMarked x = true ↔ t.space.isMarked x = true ∨
        t.space.Reach
          (fun y => ∃ r ∈ refs, r.2.referent = some y ∧ policy.gives r.2 = false) x := by
  induction refs generalizing t with
  | nil =>
    refine ⟨hw, hc, rfl, fun x => ⟨Or.inl, ?_⟩⟩
    rintro (h | h)
    · exact h
    · exact h.subset (fun y => t.space.isMarked y = true) (by simp) (fun a b ha hl hb =>
        hc a b ha hl hb)
  | cons r rest ih =>
    cases hr : r.2.referent with
    | none =>
      simp only [retainSoft, hr, List.mem_cons, exists_eq_or_imp, reduceCtorEq, false_and, false_or]
      exact ih hw hc
    | some id =>
      by_cases hm : t.space.isMarked id = true
      · simp only [retainSoft, hr, hm, if_true, List.mem_cons, exists_eq_or_imp, Option.some.injEq]
        obtain ⟨hw', hc', hp', hm'⟩ := ih hw hc
        refine ⟨hw', hc', hp', fun x => ?_⟩
        rw [hm' x]
        constructor
        · rintro (h | h)
          · exact Or.inl h
          · exact Or.inr (h.mono fun _ => Or.inr)
        · rintro (h | h)
          · exact Or.inl h
          · -- what a marked object reaches is marked already
            refine h.subset (fun x => t.space.isMarked x = true ∨ t.space.Reach (fun y =>
                ∃ r ∈ rest, r.2.referent = some y ∧ policy.gives r.2 = false) x) ?_ ?_
            · rintro y (⟨rfl, -⟩ | hy) hcy
              · exact Or.inl hm
              · exact Or.inr (.base hy hcy)
            · rintro a b (ha | ha) hl hb
              · exact Or.inl (hc a b ha hl hb)
              · exact Or.inr (.link ha hl hb)
      · have hm0 : t.space.isMarked id = false := by simpa using hm
        by_cases hg : policy.gives r.2 = true
        · simp only [retainSoft, hr, hm0, Bool.false_eq_true, if_false, hg, if_true, List.mem_cons,
            exists_eq_or_imp, Bool.true_eq_false, and_false, false_or]
          exact ih hw hc
        · have hg0 : policy.gives r.2 = false := by simpa using hg
          simp only [retainSoft, hr, hm0, Bool.false_eq_true, if_false, hg0]
          have hp := Trace.plain_markFrom t id
          obtain ⟨hw', hc', hp', hm'⟩ :=
            ih (Trace.work_markFrom t id) (Trace.closed_markFrom hw hc id)
          refine ⟨hw', hc', hp'.trans hp, fun x => ?_⟩
          rw [hm' x, Trace.isMarked_markFrom_iff hw hc, Space.reach_iff_of_plain_eq hp, or_assoc,
            ← Space.reach_or_iff]
          have heq : ∀ y, (y = id ∨ ∃ q ∈ rest, q.2.referent = some y ∧ policy.gives q.2 = false) ↔
              ∃ q ∈ r :: rest, q.2.referent = some y ∧ policy.gives q.2 = false := by
            intro y
            simp only [List.mem_cons, exists_eq_or_imp, hr, hg0, Option.some.injEq, and_true,
              @eq_comm _ id y]
          simp only [heq]

omit refs hw hc in
/-- The references that `retainSoft` gives up are some of those it was given, in their order. -/
theorem retainSoft_sublist (refs : List (Nat × Reference)) (t : Trace φ) :
    (retainSoft policy t refs).2.Sublist refs := by
  induction refs generalizing t with
  | nil => exact List.Sublist.refl _
  | cons r rest ih =>
    simp only [retainSoft]
    split
    · exact (ih t).cons r
    · split
      · exact (ih t).cons r
      · split
        · exact (ih t).cons_cons r
        · exact (ih _).cons r

theorem mem_retainSoft_of_unmarked {r : Nat × Reference} (hr : r ∈ refs)
    {id : ObjectId} (hid : r.2.referent = some id) (hlive : t.space.contains id = true)
    (hm : (retainSoft policy t refs).1.space.isMarked id = false) :
    r ∈ (retainSoft policy t refs).2 ∧ policy.gives r.2 = true := by
  have hmark := (retainSoft_trace policy refs hw hc).2.2.2 id
  rw [hm] at hmark
  have hgive : policy.gives r.2 = true := by
    by_contra hg
    have : t.space.Reach (fun y => ∃ r ∈ refs, r.2.referent = some y ∧
          policy.gives r.2 = false) id := .base ⟨r, hr, hid, by simpa using hg⟩ hlive
    exact absurd (hmark.mpr (Or.inr this)) (by simp)
  refine ⟨?_, hgive⟩
  clear hmark
  induction refs generalizing t with
  | nil => cases hr
  | cons q rest ih =>
    cases hq : q.2.referent with
    | none =>
      simp only [retainSoft, hq] at hm ⊢
      rcases List.mem_cons.mp hr with rfl | hr'
      · rw [hq] at hid
        cases hid
      · exact ih hw hc hr' hlive hm
    | some id' =>
      by_cases hmq : t.space.isMarked id' = true
      · simp only [retainSoft, hq, hmq, if_true] at hm ⊢
        rcases List.mem_cons.mp hr with rfl | hr'
        · rw [hq] at hid
          cases hid
          have := ((retainSoft_trace policy rest hw hc).2.2.2 id).mpr (Or.inl hmq)
          rw [hm] at this
          cases this
        · exact ih hw hc hr' hlive hm
      · have hmq0 : t.space.isMarked id' = false := by simpa using hmq
        by_cases hg : policy.gives q.2 = true
        · simp only [retainSoft, hq, hmq0, Bool.false_eq_true, if_false, hg, if_true] at hm ⊢
          rcases List.mem_cons.mp hr with rfl | hr'
          · exact List.mem_cons_self
          · exact List.mem_cons_of_mem _ (ih hw hc hr' hlive hm)
        · have hg0 : policy.gives q.2 = false := by simpa using hg
          simp only [retainSoft, hq, hmq0, Bool.false_eq_true, if_false, hg0] at hm ⊢
          rcases List.mem_cons.mp hr with rfl | hr'
          · rw [hg0] at hgive
            cases hgive
          · refine ih (Trace.work_markFrom t id') (Trace.closed_markFrom hw hc id') hr' ?_ hm
            rw [Space.contains_of_plain_eq (Trace.plain_markFrom t id')]
            exact hlive

/-- Of the references that `retainSoft` goes through, those are lost in the end that the policy
gives up and whose objects are unmarked in the end: it does not matter what was marked when their
turn came. -/
theorem lost_retainSoft
    (hs : ∀ id, (retainSoft policy t refs).1.space.isMarked id = true → s.isMarked id = true) :
    lost s (retainSoft policy t refs).2 = lost s (refs.filter fun r => policy.gives r.2) := by
  induction refs generalizing t with
  | nil => rfl
  | cons r rest ih =>
    -- a reference to an object that is marked, or to none, is not lost
    have hskip : isLost s r.2 = false → lost s ((r :: rest).filter fun r => policy.gives r.2) =
        lost s (rest.filter fun r => policy.gives r.2) := by
      intro hl
      rw [List.filter_cons]
      split
      · rw [lost, List.filter_cons, if_neg (by rw [hl]; exact Bool.false_ne_true), lost]
      · rfl
    cases hr : r.2.referent with
    | none =>
      simp only [retainSoft, hr] at hs ⊢
      rw [hskip (by simp [isLost, hr])]
      exact ih hw hc hs
    | some id =>
      by_cases hm : t.space.isMarked id = true
      · simp only [retainSoft, hr, hm, if_true] at hs ⊢
        have hmarked := hs id (((retainSoft_trace policy rest hw hc).2.2.2 id).mpr (Or.inl hm))
        rw [hskip (by simp [isLost, hr, hmarked])]
        exact ih hw hc hs
      · have hm0 : t.space.isMarked id = false := by simpa using hm
        by_cases hg : policy.gives r.2 = true
        · simp only [retainSoft, hr, hm0, Bool.false_eq_true, if_false, hg, if_true] at hs ⊢
          rw [List.filter_cons, if_pos hg]
          have hrest := ih hw hc hs
          unfold lost at hrest ⊢
          rw [List.filter_cons, List.filter_cons]
          split
          · rw [List.map_cons, List.map_cons, hrest]
          · exact hrest
        · have hg0 : policy.gives r.2 = false := by simpa using hg
          simp only [retainSoft, hr, hm0, Bool.false_eq_true, if_false, hg0] at hs ⊢
          rw [List.filter_cons, if_neg hg]
          exact ih (Trace.work_markFrom t id) (Trace.closed_markFrom hw hc id) hs

end Soft

section Finalizers

theorem get?_takeFinalizers (enabled : Bool) (ids : List ObjectId)
    (hnd : ids.Nodup) (s : Space φ) (x : ObjectId) :
    (takeFinalizers enabled s ids).1.get? x = if x ∈ ids then (s.get? x).map (Record.taken enabled)
    else s.get? x := by
  induction ids generalizing s with
  | nil => simp [takeFinalizers]
  | cons id ids ih =>
    obtain ⟨hid, hnd⟩ := List.nodup_cons.mp hnd
    -- both ways of taking a finalizer change the record in the same way
    have hstep : (takeFinalizers enabled s (id :: ids)).1 =
        (takeFinalizers enabled (s.update id (Record.taken enabled)) ids).1 := by
      have hcongr : ∀ f : Record φ → Record φ, (∀ r, s.get? id = some r → f r = r.taken enabled) →
          s.update id f = s.update id (Record.taken enabled) := by
        intro f hf
        exact Space.update_congr hf
      simp only [takeFinalizers]
      split
      · rename_i hnone
        rw [hcongr]
        intro r hr
        have : r.finalizer = none := by simpa [hr] using hnone
        simp [Record.taken, this]
      · rename_i f hsome
        rw [hcongr]
        intro r hr
        have : r.finalizer = some f := by simpa [hr] using hsome
        simp [Record.taken, this]
    rw [hstep, ih hnd, Space.get?_update]
    by_cases hx : x = id
    · subst hx
      simp [hid]
    · simp [hx]

theorem snd_takeFinalizers (enabled : Bool) (ids : List ObjectId) (hnd : ids.Nodup) (s : Space φ) :
    (takeFinalizers enabled s ids).2 =
      ids.filterMap fun id => ((s.get? id).bind (·.finalizer)).map fun f => (id, f) := by
  induction ids generalizing s with
  | nil => simp [takeFinalizers]
  | cons id ids ih =>
    obtain ⟨hid, hnd⟩ := List.nodup_cons.mp hnd
    have hrest : ∀ g : Record φ → Record φ,
        (ids.filterMap fun x => (((s.update id g).get? x).bind (·.finalizer)).map fun f => (x, f)) =
          ids.filterMap fun x => ((s.get? x).bind (·.finalizer)).map fun f => (x, f) := by
      intro g
      apply List.filterMap_congr
      intro x hx
      have hne : x ≠ id := by
        rintro rfl
        exact hid hx
      simp [Space.get?_update, hne]
    simp only [takeFinalizers]
    split
    · rename_i hnone
      rw [ih hnd, hrest]
      simp only [List.filterMap_cons, hnone, Option.map_none]
    · rename_i f hsome
      rw [ih hnd, hrest]
      simp only [List.filterMap_cons, hsome, Option.map_some]

theorem sound_takeFinalizers (enabled : Bool) (ids : List ObjectId) (hs : s.Sound) :
    (takeFinalizers enabled s ids).1.Sound := by
  induction ids generalizing s with
  | nil => exact hs
  | cons id ids ih =>
    simp only [takeFinalizers]
    split
    · exact ih (hs.update _ _)
    · exact ih (hs.update _ _)

theorem mem_finalizable {id : ObjectId} : id ∈ finalizable s ↔
      ∃ r, s.get? id = some r ∧ r.header.marked = false ∧ r.header.finalizable = true := by
  unfold finalizable
  rw [List.mem_filter, Space.mem_ids]
  constructor
  · rintro ⟨⟨r, hr⟩, h⟩
    rw [hr] at h
    exact ⟨r, hr, by simpa using h⟩
  · rintro ⟨r, hr, hm, hf⟩
    refine ⟨⟨r, hr⟩, ?_⟩
    rw [hr]
    simp [hm, hf]

theorem nodup_finalizable (s : Space φ) : (finalizable s).Nodup := (Space.nodup_ids s).filter _

theorem get?_foldl_pin (jobs : List (ObjectId × φ)) (s : Space φ) (id : ObjectId) :
    (jobs.foldl (fun s job => s.pin job.1) s).get? id =
      (s.get? id).map fun r => { r with roots := r.roots + (jobs.map Prod.fst).count id } := by
  induction jobs generalizing s with
  | nil =>
    rw [List.foldl_nil]
    cases s.get? id <;> simp
  | cons job jobs ih =>
    rw [List.foldl_cons, ih]
    simp only [Space.pin, Space.get?_update, List.map_cons, List.count_cons]
    by_cases hid : id = job.1
    · subst hid
      cases s.get? job.1 with
      | none => simp
      | some r =>
        simp only [if_true, Option.map_some, beq_self_eq_true]
        congr 2
        omega
    · have : (job.1 == id) = false := by simpa using fun h => hid h.symm
      simp [hid, this]

theorem sound_foldl_pin (jobs : List (ObjectId × φ)) (hs : s.Sound) :
    (jobs.foldl (fun s job => s.pin job.1) s).Sound := by
  induction jobs generalizing s with
  | nil => exact hs
  | cons job jobs ih => exact ih (hs.update _ _)

end Finalizers

section Phases

variable (h : Heap φ) (settings : Settings) (reason : Reason)

/-- The policy under which a collection gives up soft references. -/
def softPolicy : SoftPolicy :=
  SoftPolicy.ofSettings settings reason
    ((Numeral.Format.double.ofNat (Trace.markRoots h.space).bytes).div .double
      (Numeral.Format.double.ofNat h.space.capacity))
    h.clock

/-- The trace after the soft references under a policy, and the references that were given up. -/
def softTrace (policy : SoftPolicy) : Trace φ × List (Nat × Reference) :=
  retainSoft policy (Trace.markRoots h.space) (ofKind .soft h.tracked)

/-- The trace after the soft references, and the references that were given up. -/
def softPhase : Trace φ × List (Nat × Reference) :=
  retainSoft (h.softPolicy settings reason) (Trace.markRoots h.space) (ofKind .soft h.tracked)

/-- The space after finalizers were taken, and the finalizers. -/
def finalizerPhase : Space φ × List (ObjectId × φ) :=
  takeFinalizers settings.finalizerEnabled (h.softPhase settings reason).1.space
    (finalizable (h.softPhase settings reason).1.space)

def toRun : List (ObjectId × φ) :=
  if settings.finalizerEnabled then (h.finalizerPhase settings reason).2 else []

def lastTrace : Trace φ :=
  (h.toRun settings reason).foldl (fun t job => t.markFrom job.1)
    { (h.softPhase settings reason).1 with space := (h.finalizerPhase settings reason).1 }

/-- The space that is swept: the objects of jobs have one more root. -/
def pinnedSpace : Space φ :=
  ((h.toRun settings reason).filter fun job =>
    (h.lastTrace settings reason).space.contains job.1).foldl (fun s job =>
    s.pin job.1) (h.lastTrace settings reason).space

theorem space_pause :
    (h.pause settings reason).heap.space = (h.pinnedSpace settings reason).sweep := rfl

/-- The object of a soft reference that the policy keeps. -/
def Retained (id : ObjectId) : Prop :=
  ∃ i r, (i, r) ∈ h.tracked ∧ r.kind = .soft ∧ r.referent = some id ∧
    (h.softPolicy settings reason).gives r = false

/-- What roots and the objects of retained soft references reach. -/
def Held (id : ObjectId) : Prop :=
  h.space.Reach (fun x => Trace.Rooted h.space x ∨ h.Retained settings reason x) id

/-- What roots and the objects of the soft references reach that a policy keeps. -/
def KeptBy (policy : SoftPolicy) (id : ObjectId) : Prop :=
  h.space.Reach
    (fun x => Trace.Rooted h.space x ∨
      ∃ i r, (i, r) ∈ h.tracked ∧ r.kind = .soft ∧ r.referent = some x ∧ policy.gives r = false) id

/-- An object with a finalizer that nothing holds any more. -/
def Finalizing (id : ObjectId) : Prop :=
  ¬ h.Held settings reason id ∧ ∃ r f, h.space.get? id = some r ∧ r.finalizer = some f

def Scheduled (id : ObjectId) : Prop :=
  settings.finalizerEnabled = true ∧ h.Finalizing settings reason id

/-- What roots, retained soft references and objects whose finalizers are going to run reach. -/
def Survives (id : ObjectId) : Prop :=
  h.space.Reach (fun x => Trace.Rooted h.space x ∨ h.Retained settings reason x ∨
    h.Scheduled settings reason x) id

end Phases

section Marks

variable {h : Heap φ} (settings : Settings) (reason : Reason)

theorem mem_ofKind : r ∈ ofKind kind refs ↔ r ∈ refs ∧ r.2.kind = kind := by
  simp [ofKind]

theorem softTrace_spec (policy : SoftPolicy) (hu : h.space.Unmarked) :
    (h.softTrace policy).1.work = [] ∧ (h.softTrace policy).1.space.Closed ∧
      (h.softTrace policy).1.space.plain = h.space.plain := by
  obtain ⟨hw, hc, hp, -⟩ := retainSoft_trace policy (ofKind .soft h.tracked)
      (Trace.work_markRoots h.space) (Trace.closed_markRoots hu)
  exact ⟨hw, hc, hp.trans (Trace.plain_markRoots _)⟩

/-- After the soft references exactly that is marked which roots and the policy keep. -/
theorem isMarked_softTrace_iff (policy : SoftPolicy) (hu : h.space.Unmarked) (x : ObjectId) :
    (h.softTrace policy).1.space.isMarked x = true ↔ h.KeptBy policy x := by
  have hm := (retainSoft_trace policy (ofKind .soft h.tracked) (Trace.work_markRoots h.space)
    (Trace.closed_markRoots hu)).2.2.2 x
  unfold softTrace KeptBy
  rw [hm, Trace.isMarked_markRoots_iff hu, Space.reach_iff_of_plain_eq (Trace.plain_markRoots _),
    ← Space.reach_or_iff]
  simp only [mem_ofKind, Prod.exists, and_assoc]

variable (hu : h.space.Unmarked)

include hu

theorem plain_softPhase : (h.softPhase settings reason).1.space.plain = h.space.plain :=
  (softTrace_spec (h.softPolicy settings reason) hu).2.2

theorem closed_softPhase : (h.softPhase settings reason).1.space.Closed :=
  (softTrace_spec (h.softPolicy settings reason) hu).2.1

theorem work_softPhase : (h.softPhase settings reason).1.work = [] :=
  (softTrace_spec (h.softPolicy settings reason) hu).1

theorem isMarked_softPhase_iff (x : ObjectId) :
    (h.softPhase settings reason).1.space.isMarked x = true ↔ h.Held settings reason x :=
  isMarked_softTrace_iff (h.softPolicy settings reason) hu x

/-- What the finalizer phase goes through: the objects with a finalizer that nothing holds. -/
theorem mem_finalizable_softPhase (hm : h.space.Mirrored) (id : ObjectId) :
    id ∈ finalizable (h.softPhase settings reason).1.space ↔ h.Finalizing settings reason id := by
  have hp := plain_softPhase settings reason hu
  rw [mem_finalizable]
  constructor
  · rintro ⟨r, hr, hmk, hf⟩
    obtain ⟨r₀, hr₀, hpl⟩ := Space.exists_get?_of_plain_eq hp.symm hr
    refine ⟨?_, ?_⟩
    · rw [← isMarked_softPhase_iff settings reason hu]
      simp [Space.isMarked, hr, hmk]
    · have hfin : r₀.header.finalizable = true := by
        rw [← Record.plain_finalizable, hpl]
        exact hf
      rw [hm id r₀ hr₀] at hfin
      obtain ⟨f, hf'⟩ := Option.isSome_iff_exists.mp hfin
      exact ⟨r₀, f, hr₀, hf'⟩
  · rintro ⟨hheld, r₀, f, hr₀, hf⟩
    obtain ⟨r, hr, hpl⟩ := Space.exists_get?_of_plain_eq hp hr₀
    refine ⟨r, hr, ?_, ?_⟩
    · rw [← isMarked_softPhase_iff settings reason hu] at hheld
      simpa [Space.isMarked, hr] using hheld
    · rw [← Record.plain_finalizable, hpl, Record.plain_finalizable, hm id r₀ hr₀, hf]
      rfl

end Marks

end Heap

end ManagedHeap
