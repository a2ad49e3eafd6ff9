import ManagedHeap.Heap.Trace
import ManagedHeap.Proofs.Space

/-!
# Tracing is exact

**Input.**  A trace with an empty worklist whose marked records are closed under fields, and names
to trace from.

**Results.**
* `Space.Reach`: what a set of names reaches through the fields of records.
* `Trace.isMarked_markAll_iff`, `Trace.isMarked_markFrom_iff`: exactly what was marked before and
  what the names reach is marked afterwards, and the marked records are closed under fields again
  (`Trace.Closed`).
* `Trace.plain_markAll`, `Trace.plain_markFrom`: nothing but marks changes.
-/

namespace ManagedHeap

variable {id : ObjectId}

namespace Record

variable {φ : Type}

def plain (r : Record φ) : Record φ := { r with header := r.header.unmark }

variable (r : Record φ)

include r

@[simp] theorem plain_fields : r.plain.fields = r.fields := rfl
@[simp] theorem plain_finalizer : r.plain.finalizer = r.finalizer := rfl
@[simp] theorem plain_finalizable : r.plain.header.finalizable = r.header.finalizable := rfl

@[simp] theorem plain_plain : r.plain.plain = r.plain := rfl

end Record

namespace Space

variable {φ : Type} {s s' : Space φ}

section Plain

def plain (s : Space φ) : Space φ :=
  { s with slots := s.slots.map fun slot => { slot with record := slot.record.map Record.plain } }

@[simp] theorem get?_plain (s : Space φ) (id : ObjectId) :
    s.plain.get? id = (s.get? id).map Record.plain := by
  simp only [get?, plain, Array.getElem?_map]
  cases s.slots[id.index]? with
  | none => rfl
  | some slot =>
    simp only [Option.map_some]
    split <;> simp

@[simp] theorem contains_plain (s : Space φ) (id : ObjectId) :
    s.plain.contains id = s.contains id := by
  simp [contains]

theorem plain_mark (s : Space φ) (id : ObjectId) : (s.mark id).plain = s.plain := by
  unfold mark update
  split
  · simp only [plain]
    congr 1
    apply Array.ext_getElem?
    intro i
    simp only [Array.getElem?_map, Array.getElem?_modify]
    split
    · cases s.slots[i]? with
      | none => rfl
      | some slot =>
        cases hr : slot.record with
        | none => simp [hr]
        | some r => simp [hr, Record.plain, Header.mark, Header.unmark]
    · rfl
  · rfl

theorem contains_of_plain_eq (h : s'.plain = s.plain) (id : ObjectId) :
    s'.contains id = s.contains id := by
  rw [← contains_plain s', h, contains_plain]

theorem exists_get?_of_plain_eq (h : s'.plain = s.plain) (hr : s.get? id = some r) :
    ∃ r', s'.get? id = some r' ∧ r'.plain = r.plain := by
  have hp : (s'.get? id).map Record.plain = (s.get? id).map Record.plain := by
    rw [← get?_plain, h, get?_plain]
  rw [hr, Option.map_some] at hp
  exact Option.map_eq_some_iff.mp hp

theorem sound_plain_iff : s.plain.Sound ↔ s.Sound := by
  have hvacant : ∀ i : Nat, (∃ slot, s.plain.slots[i]? = some slot ∧ slot.record = none) ↔
      ∃ slot, s.slots[i]? = some slot ∧ slot.record = none := by
    intro i
    simp only [plain, Array.getElem?_map]
    cases s.slots[i]? <;> simp
  constructor
  · rintro ⟨hnd, hv⟩
    exact ⟨hnd, fun i => (hv i).trans (hvacant i)⟩
  · rintro ⟨hnd, hv⟩
    exact ⟨hnd, fun i => (hv i).trans (hvacant i).symm⟩

theorem Sound.of_plain_eq (h : s'.plain = s.plain) (hs : s.Sound) : s'.Sound := by
  rw [← sound_plain_iff, h, sound_plain_iff]
  exact hs

theorem isMarked_mark (s : Space φ) (id x : ObjectId) :
    (s.mark id).isMarked x = true ↔ s.isMarked x = true ∨ (x = id ∧ s.contains id = true) := by
  simp only [isMarked_iff, contains_iff, mark, get?_update]
  by_cases hx : x = id
  · subst hx
    cases s.get? x <;> simp [Header.mark]
  · simp [hx]

end Plain

section Reach

variable {start : ObjectId → Prop}

/-- A field of the first object names the second. -/
def Links (s : Space φ) (a b : ObjectId) : Prop := ∃ r, s.get? a = some r ∧ some b ∈ r.fields

/-- What a set of names reaches through the fields of stored records. -/
inductive Reach (s : Space φ) (start : ObjectId → Prop) : ObjectId → Prop
  | base {id : ObjectId} : start id → s.contains id = true → Reach s start id
  | link {a b : ObjectId} : Reach s start a → s.Links a b → s.contains b = true → Reach s start b

theorem links_of_plain_eq (h : s'.plain = s.plain) : s'.Links a b ↔ s.Links a b := by
  constructor
  · rintro ⟨r, hr, hb⟩
    obtain ⟨r', hr', hp⟩ := exists_get?_of_plain_eq h.symm hr
    refine ⟨r', hr', ?_⟩
    rw [← Record.plain_fields, hp]
    exact hb
  · rintro ⟨r, hr, hb⟩
    obtain ⟨r', hr', hp⟩ := exists_get?_of_plain_eq h hr
    refine ⟨r', hr', ?_⟩
    rw [← Record.plain_fields, hp]
    exact hb

theorem Reach.contains (h : s.Reach start id) : s.contains id = true := by
  cases h with
  | base _ hc => exact hc
  | link _ _ hc => exact hc

theorem Reach.mono (hpq : ∀ id, p id → q id) (h : s.Reach p id) : s.Reach q id := by
  induction h with
  | base hp hc => exact .base (hpq _ hp) hc
  | link _ hl hc ih => exact .link ih hl hc

theorem Reach.of_plain_eq (h : s'.plain = s.plain) (hr : s'.Reach start id) : s.Reach start id := by
  induction hr with
  | base hs hc => exact .base hs (by rwa [← contains_of_plain_eq h])
  | link _ hl hc ih =>
    exact .link ih ((links_of_plain_eq h).mp hl) (by rwa [← contains_of_plain_eq h])

theorem reach_iff_of_plain_eq (h : s'.plain = s.plain) : s'.Reach start id ↔ s.Reach start id :=
  ⟨Reach.of_plain_eq h, Reach.of_plain_eq h.symm⟩

/-- A set that holds the live starting names and is closed under fields holds all that is
reached. -/
theorem Reach.subset (h : s.Reach start id) (closed : ObjectId → Prop)
    (hstart : ∀ x, start x → s.contains x = true → closed x)
    (hlink : ∀ a b, closed a → s.Links a b → s.contains b = true → closed b) : closed id := by
  induction h with
  | base hs hc => exact hstart _ hs hc
  | link _ hl hc ih => exact hlink _ _ ih hl hc

theorem reach_or_iff : s.Reach (fun x => p x ∨ q x) id ↔ s.Reach p id ∨ s.Reach q id := by
  constructor
  · intro h
    refine h.subset (fun x => s.Reach p x ∨
      s.Reach q x) (fun x hx hc => ?_) (fun a b ha hl hc => ?_)
    · rcases hx with hp | hq
      · exact Or.inl (.base hp hc)
      · exact Or.inr (.base hq hc)
    · rcases ha with hp | hq
      · exact Or.inl (.link hp hl hc)
      · exact Or.inr (.link hq hl hc)
  · rintro (h | h)
    · exact h.mono fun _ => Or.inl
    · exact h.mono fun _ => Or.inr

def Closed (s : Space φ) : Prop :=
  ∀ a b, s.isMarked a = true → s.Links a b → s.contains b = true → s.isMarked b = true

end Reach

end Space

namespace Trace

variable {φ : Type} {t : Trace φ}

theorem mem_children : b ∈ t.children a ↔ t.space.Links a b := by
  unfold children Space.Links
  cases t.space.get? a with
  | none => simp
  | some r => simp [List.mem_filterMap]

section Visit

theorem visit_of_marked (h : t.space.isMarked id = true) : t.visit id = t := by
  obtain ⟨r, hr, hm⟩ := Space.isMarked_iff.mp h
  simp [visit, hr, hm]

theorem visit_of_absent (h : t.space.contains id = false) : t.visit id = t := by
  have := Space.contains_eq_false_iff.mp h
  simp [visit, this]

theorem visit_of_unmarked (hc : t.space.contains id = true) (hm : t.space.isMarked id = false) :
    (t.visit id).space = t.space.mark id ∧ (t.visit id).work = id :: t.work := by
  obtain ⟨r, hr⟩ := Space.contains_iff.mp hc
  have hm' : r.header.marked = false := by simpa [Space.isMarked, hr] using hm
  simp [visit, hr, hm']

theorem plain_visit (t : Trace φ) (id : ObjectId) : (t.visit id).space.plain = t.space.plain := by
  unfold visit
  split
  · rfl
  · split
    · rfl
    · exact Space.plain_mark _ _

theorem isMarked_visit (t : Trace φ) (id x : ObjectId) : (t.visit id).space.isMarked x = true ↔
      t.space.isMarked x = true ∨ (x = id ∧ t.space.contains id = true) := by
  by_cases hc : t.space.contains id = true
  · by_cases hm : t.space.isMarked id = true
    · rw [visit_of_marked hm]
      constructor
      · exact Or.inl
      · rintro (h | ⟨rfl, -⟩)
        · exact h
        · exact hm
    · rw [(visit_of_unmarked hc (by simpa using hm)).1]
      exact Space.isMarked_mark _ _ _
  · rw [visit_of_absent (by simpa using hc)]
    simp [hc]

theorem plain_foldl_visit (ids : List ObjectId) (t : Trace φ) :
    (ids.foldl visit t).space.plain = t.space.plain := by
  induction ids generalizing t with
  | nil => rfl
  | cons id ids ih => rw [List.foldl_cons, ih, plain_visit]

theorem isMarked_foldl_visit (ids : List ObjectId) (t : Trace φ) (x : ObjectId) :
    (ids.foldl visit t).space.isMarked x = true ↔
      t.space.isMarked x = true ∨ (x ∈ ids ∧ t.space.contains x = true) := by
  induction ids generalizing t with
  | nil => simp
  | cons id ids ih =>
    rw [List.foldl_cons, ih, isMarked_visit, Space.contains_of_plain_eq (plain_visit t id)]
    constructor
    · rintro ((h | ⟨rfl, hc⟩) | ⟨hm, hc⟩)
      · exact Or.inl h
      · exact Or.inr ⟨by simp, hc⟩
      · exact Or.inr ⟨List.mem_cons_of_mem _ hm, hc⟩
    · rintro (h | ⟨hm, hc⟩)
      · exact Or.inl (Or.inl h)
      · rcases List.mem_cons.mp hm with rfl | hm
        · exact Or.inl (Or.inr ⟨rfl, hc⟩)
        · exact Or.inr ⟨hm, hc⟩

/-- What is on the list after some visits was there before, or the visits marked it. -/
theorem mem_work_foldl_visit (ids : List ObjectId) (t : Trace φ) (x : ObjectId) :
    x ∈ (ids.foldl visit t).work ↔
    x ∈ t.work ∨ (t.space.isMarked x = false ∧ (ids.foldl visit t).space.isMarked x = true) := by
  induction ids generalizing t with
  | nil => simp
  | cons id ids ih =>
    rw [List.foldl_cons, ih]
    by_cases hc : t.space.contains id = true
    · by_cases hm : t.space.isMarked id = true
      · rw [visit_of_marked hm]
      · have hm' : t.space.isMarked id = false := by simpa using hm
        have hv := isMarked_visit t id
        rw [(visit_of_unmarked hc hm').2, List.mem_cons]
        have hgrow := (isMarked_foldl_visit ids (t.visit id) x)
        by_cases hx : x = id
        · subst hx
          have : (t.visit x).space.isMarked x = true := (hv x).mpr (Or.inr ⟨rfl, hc⟩)
          have hfin := hgrow.mpr (Or.inl this)
          simp [hm', hfin]
        · have : (t.visit id).space.isMarked x = t.space.isMarked x := by
            rw [Bool.eq_iff_iff, hv x]
            simp [hx]
          rw [this]
          simp [hx]
    · rw [visit_of_absent (by simpa using hc)]

end Visit

section Drain

/-- A trace in good order: what is on the list is marked, and the fields of marked records that are
off the list have been followed. -/
structure Ordered (t : Trace φ) : Prop where
  work_marked : ∀ id ∈ t.work, t.space.isMarked id = true
  followed : ∀ a b, t.space.isMarked a = true → a ∉ t.work → t.space.Links a b →
    t.space.contains b = true → t.space.isMarked b = true

theorem Ordered.of_closed (hw : t.work = []) (hc : t.space.Closed) : t.Ordered where
  work_marked := by simp [hw]
  followed := fun a b ha _ hl hb => hc a b ha hl hb

theorem Ordered.closed (h : t.Ordered) (hw : t.work = []) : t.space.Closed := by
  intro a b ha hl hb
  exact h.followed a b ha (by simp [hw]) hl hb

theorem Ordered.foldl_visit (h : t.Ordered) (ids : List ObjectId) :
    (ids.foldl visit t).Ordered where
  work_marked := by
    intro x hx
    rcases (mem_work_foldl_visit ids t x).mp hx with hx | ⟨-, hx⟩
    · exact (isMarked_foldl_visit ids t x).mpr (Or.inl (h.work_marked x hx))
    · exact hx
  followed := by
    intro a b ha hw hl hb
    have hp := plain_foldl_visit ids t
    rw [mem_work_foldl_visit, not_or] at hw
    have ha' : t.space.isMarked a = true := by
      by_contra hne
      exact hw.2 ⟨by simpa using hne, ha⟩
    refine (isMarked_foldl_visit ids t b).mpr (Or.inl ?_)
    exact h.followed a b ha' hw.1 ((Space.links_of_plain_eq hp).mp hl)
      (by rwa [← Space.contains_of_plain_eq hp])

theorem Ordered.follow (h : t.Ordered) (hw : t.work = id :: rest) :
    ((t.children id).foldl visit { t with work := rest }).Ordered where
  work_marked := by
    intro x hx
    rcases (mem_work_foldl_visit _ _ x).mp hx with hx | ⟨-, hx⟩
    · refine (isMarked_foldl_visit _ _ x).mpr (Or.inl (h.work_marked x ?_))
      rw [hw]
      exact List.mem_cons_of_mem _ hx
    · exact hx
  followed := by
    intro a b ha hwa hl hb
    have hp := plain_foldl_visit (t.children id) { t with work := rest }
    have hl' : t.space.Links a b := (Space.links_of_plain_eq hp).mp hl
    have hb' : t.space.contains b = true := by
      have := Space.contains_of_plain_eq hp b
      rw [this] at hb
      exact hb
    rw [mem_work_foldl_visit, not_or] at hwa
    have ha' : t.space.isMarked a = true := by
      by_contra hne
      exact hwa.2 ⟨by simpa using hne, ha⟩
    refine (isMarked_foldl_visit _ _ b).mpr ?_
    by_cases hid : a = id
    · subst hid
      exact Or.inr ⟨mem_children.mpr hl', hb'⟩
    · refine Or.inl (h.followed a b ha' ?_ hl' hb')
      rw [hw, List.mem_cons]
      rintro (h1 | h1)
      · exact hid h1
      · exact hwa.1 h1

theorem work_drain (t : Trace φ) : t.drain.work = [] := by
  induction t using drain.induct with
  | case1 t h =>
    rw [drain]
    split
    · assumption
    · simp_all
  | case2 t id rest h _ ih =>
    rw [drain]
    split
    · simp_all
    · rename_i id' rest' h'
      rw [h] at h'
      cases h'
      exact ih

/-- What holds of a trace and is kept when a name is taken off its list holds at the end. -/
theorem drain_of_follow {motive : Trace φ → Prop} (h : motive t)
    (hstep : ∀ t id rest, motive t → t.work = id :: rest →
      motive ((t.children id).foldl visit { t with work := rest })) :
    motive t.drain := by
  induction t using drain.induct with
  | case1 t hw =>
    rw [drain]
    split
    · exact h
    · simp_all
  | case2 t id rest hw _ ih =>
    rw [drain]
    split
    · simp_all
    · rename_i id' rest' hw'
      rw [hw] at hw'
      cases hw'
      exact ih (hstep t id rest h hw)

theorem plain_drain (t : Trace φ) : t.drain.space.plain = t.space.plain := by
  refine drain_of_follow (motive := fun u => u.space.plain = t.space.plain) rfl ?_
  intro u id rest hu hw
  rw [plain_foldl_visit]
  exact hu

theorem Ordered.drain (h : t.Ordered) : t.drain.Ordered :=
  drain_of_follow h fun _ _ _ hu hw => hu.follow hw

theorem isMarked_drain_of_isMarked {x : ObjectId} (h : t.space.isMarked x = true) :
    t.drain.space.isMarked x = true := by
  refine drain_of_follow (motive := fun u => u.space.isMarked x = true) h ?_
  intro u id rest hu hw
  exact (isMarked_foldl_visit _ _ x).mpr (Or.inl hu)

theorem Ordered.reach_of_isMarked_drain (h : t.Ordered)
    {x : ObjectId} (hx : t.drain.space.isMarked x = true) :
    t.space.Reach (fun y => t.space.isMarked y = true) x := by
  have key : t.drain.Ordered ∧ t.drain.space.plain = t.space.plain ∧ ∀ y,
      t.drain.space.isMarked y = true → t.space.Reach (fun z => t.space.isMarked z = true) y := by
    refine drain_of_follow
      (motive := fun u => u.Ordered ∧ u.space.plain = t.space.plain ∧
        ∀ y, u.space.isMarked y = true → t.space.Reach (fun z => t.space.isMarked z = true) y) ?_ ?_
    · refine ⟨h, rfl, fun y hy => .base hy ?_⟩
      obtain ⟨r, hr, -⟩ := Space.isMarked_iff.mp hy
      exact Space.contains_of_get? hr
    · rintro u id rest ⟨hu, hp, hreach⟩ hw
      refine ⟨hu.follow hw, ?_, fun y hy => ?_⟩
      · rw [plain_foldl_visit]
        exact hp
      · rcases (isMarked_foldl_visit _ _ y).mp hy with hy | ⟨hy, hc⟩
        · exact hreach y hy
        · have hid := hreach id (hu.work_marked id (by simp [hw]))
          exact .link hid ((Space.links_of_plain_eq hp).mp (mem_children.mp hy))
            (by rwa [← Space.contains_of_plain_eq hp])
  exact key.2.2 x hx

end Drain

section Mark

variable {t : Trace φ}

theorem plain_markAll (t : Trace φ) (ids : List ObjectId) :
    (t.markAll ids).space.plain = t.space.plain := by
  unfold markAll
  rw [plain_drain, plain_foldl_visit]

theorem work_markAll (t : Trace φ) (ids : List ObjectId) : (t.markAll ids).work = [] := work_drain _

variable (hw : t.work = []) (hc : t.space.Closed)

include hw hc

theorem closed_markAll (ids : List ObjectId) : (t.markAll ids).space.Closed :=
  ((Ordered.of_closed hw hc).foldl_visit ids).drain.closed (work_drain _)

/-- **Tracing is exact**: from a closed set of marks, exactly what was marked and what the names
reach is marked. -/
theorem isMarked_markAll_iff (ids : List ObjectId) (x : ObjectId) :
    (t.markAll ids).space.isMarked x = true ↔ t.space.isMarked x = true ∨
    t.space.Reach (· ∈ ids) x := by
  have hord := (Ordered.of_closed hw hc).foldl_visit ids
  have hp := plain_foldl_visit ids t
  constructor
  · intro hx
    have hr := hord.reach_of_isMarked_drain hx
    rw [Space.reach_iff_of_plain_eq hp] at hr
    refine hr.subset (fun y => t.space.isMarked y = true ∨ t.space.Reach (· ∈ ids) y)
      (fun y hy hcy => ?_) (fun a b ha hl hb => ?_)
    · rcases (isMarked_foldl_visit ids t y).mp hy with hy | ⟨hy, -⟩
      · exact Or.inl hy
      · exact Or.inr (.base hy hcy)
    · rcases ha with ha | ha
      · exact Or.inl (hc a b ha hl hb)
      · exact Or.inr (.link ha hl hb)
  · rintro (hx | hx)
    · exact isMarked_drain_of_isMarked ((isMarked_foldl_visit ids t x).mpr (Or.inl hx))
    · have hclosed := closed_markAll hw hc ids
      have hpm := plain_markAll t ids
      refine hx.subset (fun y => (t.markAll ids).space.isMarked y = true)
        (fun y hy hcy => ?_) (fun a b ha hl hb => ?_)
      · exact isMarked_drain_of_isMarked ((isMarked_foldl_visit ids t y).mpr (Or.inr ⟨hy, hcy⟩))
      · exact hclosed a b ha ((Space.links_of_plain_eq hpm).mpr hl)
          (by rwa [Space.contains_of_plain_eq hpm])

omit hw hc

theorem markFrom_eq_markAll (t : Trace φ) (id : ObjectId) : t.markFrom id = t.markAll [id] := rfl

theorem plain_markFrom (t : Trace φ) (id : ObjectId) :
    (t.markFrom id).space.plain = t.space.plain :=
  plain_markAll t [id]

theorem work_markFrom (t : Trace φ) (id : ObjectId) : (t.markFrom id).work = [] := work_drain _

include hw hc

theorem closed_markFrom (id : ObjectId) : (t.markFrom id).space.Closed :=
  closed_markAll hw hc [id]

theorem isMarked_markFrom_iff (id x : ObjectId) : (t.markFrom id).space.isMarked x = true ↔
    t.space.isMarked x = true ∨ t.space.Reach (· = id) x := by
  rw [markFrom_eq_markAll, isMarked_markAll_iff hw hc]
  simp only [List.mem_singleton]

omit hw hc

def Rooted (s : Space φ) (id : ObjectId) : Prop := ∃ r, s.get? id = some r ∧ 0 < r.roots

theorem mem_rooted : id ∈ rooted s ↔ Rooted s id := by
  unfold rooted Rooted
  rw [List.mem_filter, Space.mem_ids]
  constructor
  · rintro ⟨⟨r, hr⟩, hpos⟩
    rw [hr] at hpos
    exact ⟨r, hr, by simpa using hpos⟩
  · rintro ⟨r, hr, hpos⟩
    refine ⟨⟨r, hr⟩, ?_⟩
    rw [hr]
    simpa using hpos

end Mark

end Trace

end ManagedHeap
