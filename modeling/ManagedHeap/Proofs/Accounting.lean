import ManagedHeap.Proofs.Clearing
import ManagedHeap.Proofs.CollectionJobs
import ManagedHeap.Proofs.Generations

/-!
# Accounts of an object space

**Input.**  A run.

**Algorithm.**  A space counts bytes and objects as records are stored and swept, and a heap counts
the bytes that were ever allocated.  A collection takes bytes away in its pause and reports them at
its end; in between its thread carries the report.

**Results.**  `World.keepsAccounts_after`: counters agree with the slots, so they neither pass the
capacity nor drop below zero, and what was allocated is in use, was reported by a collection, or is
about to be.
-/

namespace ManagedHeap

/-- What the counters of a space are kept of: the generation of each slot with the bytes of its
record. -/
structure Books where
  slots : Array (Nat × Option Nat)
  usedBytes : Nat
  liveObjects : Nat
  capacity : Nat

def Slot.footprint? {φ : Type} (slot : Slot φ) : Option Nat := slot.record.map (·.header.size)

namespace Space

variable {φ : Type} {s s' : Space φ}

section Books

def footprints (s : Space φ) : Multiset Nat := total s.slots fun slot => ↑slot.footprint?.toList

def books (s : Space φ) : Books where
  slots := s.slots.map fun slot => (slot.generation, slot.footprint?)
  usedBytes := s.usedBytes
  liveObjects := s.liveObjects
  capacity := s.capacity

/-- Whether the counters of a space agree with its slots. -/
structure Accounts (s : Space φ) : Prop where
  used : s.usedBytes = s.footprints.sum
  live : s.liveObjects = s.footprints.card
  fits : s.usedBytes ≤ s.capacity
  generations : ∀ slot ∈ s.slots, 0 < slot.generation ∧ slot.generation < UInt32.size

theorem footprints_eq_books (s : Space φ) :
    s.footprints = total s.books.slots fun p => ↑p.2.toList := by
  unfold footprints books total
  rw [Array.toList_map, List.map_map]
  rfl

theorem Accounts.of_books (hs : s.Accounts) (h : s'.books = s.books) : s'.Accounts := by
  have hfootprints : s'.footprints = s.footprints := by
    rw [footprints_eq_books, footprints_eq_books, h]
  have hused : s'.usedBytes = s.usedBytes := congrArg Books.usedBytes h
  have hlive : s'.liveObjects = s.liveObjects := congrArg Books.liveObjects h
  have hcapacity : s'.capacity = s.capacity := congrArg Books.capacity h
  constructor
  case used => rw [hused, hfootprints, hs.used]
  case live => rw [hlive, hfootprints, hs.live]
  case fits => rw [hused, hcapacity]; exact hs.fits
  case generations =>
    intro slot hslot
    have hmem : (slot.generation, slot.footprint?) ∈ s.books.slots := by
      rw [← h]
      exact Array.mem_map.mpr ⟨slot, hslot, rfl⟩
    obtain ⟨slot', hslot', heq⟩ := Array.mem_map.mp hmem
    have hgeneration : slot'.generation = slot.generation := congrArg Prod.fst heq
    exact hgeneration ▸ hs.generations slot' hslot'

theorem books_update {id : ObjectId} {f : Record φ → Record φ}
    (hf : ∀ r, (f r).header.size = r.header.size) : (s.update id f).books = s.books := by
  unfold update
  split
  · unfold books
    dsimp only
    rw [map_modify, modify_eq_self fun _ _ => rfl]
    intro slot
    cases hr : slot.record <;> simp [Slot.footprint?, hr, hf]
  · rfl

theorem books_plain : s.plain.books = s.books := by
  unfold books plain
  dsimp only
  rw [Array.map_map]
  congr 2
  funext slot
  cases hr : slot.record <;> simp [Slot.footprint?, hr, Record.plain, Header.unmark]

theorem books_of_plain (h : s'.plain = s.plain) : s'.books = s.books := by
  rw [← books_plain, h, books_plain]

end Books

section Operations

theorem Accounts.empty (capacity : Nat) : (Space.empty capacity : Space φ).Accounts where
  used := rfl
  live := rfl
  fits := Nat.zero_le _
  generations slot hslot := by simp [Space.empty] at hslot

theorem Sound.footprints_insert (hs : s.Sound) (r : Record φ) :
    (s.insert r).footprints = r.header.size ::ₘ s.footprints := by
  unfold footprints Space.insert
  dsimp only
  cases hf : s.free with
  | nil =>
    dsimp only
    rw [total_push, add_comm]
    rfl
  | cons i rest =>
    obtain ⟨slot, hslot, hvacant, -⟩ := hs.nextId_cons hf
    obtain ⟨others, hbefore, hafter⟩ := exists_total_modify hslot (fun slot =>
          { slot with record := some r }) fun slot => (↑slot.footprint?.toList : Multiset Nat)
    dsimp only
    rw [hafter, hbefore]
    simp [Slot.footprint?, hvacant]

theorem Accounts.insert (ha : s.Accounts) (hs : s.Sound) (hfit : s.canFit r.header.size = true) :
    (s.insert r).Accounts := by
  have hroom : r.header.size ≤ s.capacity - s.usedBytes := of_decide_eq_true hfit
  have hfits := ha.fits
  constructor
  case used =>
    rw [hs.footprints_insert, Multiset.sum_cons, ← ha.used, add_comm]
    rfl
  case live =>
    rw [hs.footprints_insert, Multiset.card_cons, ← ha.live]
    rfl
  case fits =>
    show s.usedBytes + r.header.size ≤ s.capacity
    omega
  case generations => exact isGeneration_change ha.generations (.insert r)

theorem card_footprints_le (s : Space φ) : s.footprints.card ≤ s.slots.size := by
  unfold footprints total
  rw [← Array.length_toList]
  induction s.slots.toList with
  | nil => exact le_rfl
  | cons slot rest ih =>
    have hslot : slot.footprint?.toList.length ≤ 1 := by cases slot.footprint? <;> simp
    rw [List.map_cons, List.sum_cons, Multiset.card_add, Multiset.coe_card, List.length_cons]
    omega

theorem footprints_sweep (s : Space φ) :
    s.footprints = s.sweep.footprints + ↑(s.garbage.map (·.header.size)) := by
  unfold footprints sweep garbage total
  dsimp only
  rw [Array.toList_map, List.map_map]
  induction s.slots.toList with
  | nil => rfl
  | cons slot rest ih =>
    have hslot : (↑slot.footprint?.toList : Multiset Nat) =
        ↑slot.swept.footprint?.toList + ↑(slot.garbage?.toList.map (·.header.size)) := by
      cases hr : slot.record with
      | none => simp [Slot.footprint?, Slot.garbage?, Space.swept_of_vacant, hr]
      | some r =>
        cases hm : r.header.marked with
        | true => simp [Slot.footprint?, Slot.garbage?, Option.filter, swept_of_marked hr hm, hr,
              hm, Header.unmark]
        | false =>
          simp [Slot.footprint?, Slot.garbage?, Option.filter, swept_of_unmarked hr hm, hr, hm]
    have hgarbage : (slot :: rest).filterMap Slot.garbage? =
        slot.garbage?.toList ++ rest.filterMap Slot.garbage? := by
      cases hg : slot.garbage? <;> simp [hg]
    rw [List.map_cons, List.sum_cons, List.map_cons, List.sum_cons, ih, hslot, hgarbage,
      List.map_append, ← Multiset.coe_add]
    exact add_add_add_comm _ _ _ _

theorem garbageBytes_eq_sum (s : Space φ) :
    s.garbageBytes = (s.garbage.map (·.header.size)).sum := by
  unfold garbageBytes
  rw [List.sum_eq_foldr, List.foldr_map]

theorem Accounts.sweep (ha : s.Accounts) :
    s.sweep.Accounts ∧ s.sweep.usedBytes + s.garbageBytes = s.usedBytes ∧
    s.sweep.liveObjects + s.garbage.length = s.liveObjects := by
  have hbytes : s.usedBytes = s.sweep.footprints.sum + s.garbageBytes := by
    rw [ha.used, footprints_sweep, Multiset.sum_add, Multiset.sum_coe, garbageBytes_eq_sum]
  have hobjects : s.liveObjects = s.sweep.footprints.card + s.garbage.length := by
    rw [ha.live, footprints_sweep, Multiset.card_add, Multiset.coe_card, List.length_map]
  have hused : s.sweep.usedBytes = s.usedBytes - s.garbageBytes := rfl
  have hlive : s.sweep.liveObjects = s.liveObjects - s.garbage.length := rfl
  refine ⟨⟨by omega, by omega, ?_, isGeneration_change ha.generations .sweep⟩, by omega, by omega⟩
  have hfits := ha.fits
  show s.usedBytes - s.garbageBytes ≤ s.capacity
  omega

end Operations

end Space

namespace Heap

variable {φ : Type} {h : Heap φ}

section Pauses

theorem books_takeFinalizers (enabled : Bool) (ids : List ObjectId) (s : Space φ) :
    (takeFinalizers enabled s ids).1.books = s.books := by
  induction ids generalizing s with
  | nil => rfl
  | cons id rest ih =>
    simp only [takeFinalizers]
    split
    · rw [ih]
      exact Space.books_update fun _ => rfl
    · dsimp only
      rw [ih]
      refine Space.books_update fun _ => ?_
      split <;> rfl

theorem books_foldl_pin (jobs : List (ObjectId × φ)) (s : Space φ) :
    (jobs.foldl (fun s job => s.pin job.1) s).books = s.books := by
  induction jobs generalizing s with
  | nil => rfl
  | cons job rest ih =>
    rw [List.foldl_cons, ih]
    exact Space.books_update fun _ => rfl

theorem books_pinnedSpace (hu : h.space.Unmarked) (settings : Settings) (reason : Reason) :
    (h.pinnedSpace settings reason).books = h.space.books :=
  calc (h.pinnedSpace settings reason).books
    _ = (h.lastTrace settings reason).space.books := books_foldl_pin _ _
    _ = (h.finalizerPhase settings reason).1.books :=
      Space.books_of_plain (lastTrace_spec settings reason hu).2.1
    _ = (h.softPhase settings reason).1.space.books := books_takeFinalizers _ _ _
    _ = h.space.books := Space.books_of_plain (plain_softPhase settings reason hu)

theorem accounts_pause (ha : h.space.Accounts) (hu : h.space.Unmarked) (settings : Settings)
    (reason : Reason) : (h.pause settings reason).heap.space.Accounts ∧
    (h.pause settings reason).heap.space.usedBytes + (h.pause settings reason).reclaimedBytes =
      h.space.usedBytes ∧ (h.pause settings reason).heap.space.liveObjects +
      (h.pause settings reason).reclaimedObjects = h.space.liveObjects := by
  have hbooks := books_pinnedSpace hu settings reason
  obtain ⟨hswept, hbytes, hobjects⟩ := (ha.of_books hbooks).sweep
  have hused : (h.pinnedSpace settings reason).usedBytes = h.space.usedBytes :=
    congrArg Books.usedBytes hbooks
  have hlive : (h.pinnedSpace settings reason).liveObjects = h.space.liveObjects :=
    congrArg Books.liveObjects hbooks
  exact ⟨hswept, hbytes.trans hused, hobjects.trans hlive⟩

end Pauses

/-- Whether all bytes that were allocated are in use, but for so many. -/
def Settled (b : Nat) (h : Heap φ) : Prop :=
  h.totalAllocated = (h.space.usedBytes + b) % Numeral.wordLimit

theorem Settled.store (hs : h.Settled b) (size fields : Nat) (f : Option φ) :
    (h.store size fields f).Settled b := by
  show (h.totalAllocated + size) % Numeral.wordLimit =
    (h.space.usedBytes + size + b) % Numeral.wordLimit
  rw [hs, Nat.mod_add_mod]
  congr 1
  omega

theorem Settled.pause (hs : h.Settled b) (ha : h.space.Accounts)
    (hu : h.space.Unmarked) (settings : Settings) (reason : Reason) :
    (h.pause settings reason).heap.Settled (b + (h.pause settings reason).reclaimedBytes) := by
  obtain ⟨-, hbytes, -⟩ := accounts_pause ha hu settings reason
  show h.totalAllocated = _
  rw [hs, ← hbytes]
  congr 1
  omega

end Heap

/-- What an act does to the books of a heap; a pause is seen by others. -/
inductive Heap.Changes {φ : Type} (h : Heap φ) (paused : Prop) : Heap φ → Prop
  | keeps {h' : Heap φ} (books : h'.space.books = h.space.books)
      (allocated : h'.totalAllocated = h.totalAllocated) : Changes h paused h'
  | stores (size fields : Nat) (f : Option φ) (hfit : h.space.canFit size = true) :
      Changes h paused (h.store size fields f)
  | pauses (hp : paused) (settings : Settings)
      (reason : Reason) : Changes h paused (h.pause settings reason).heap

/-- What an act does to the books of all heaps. -/
structure Core.Alters (c : Core) (deeds : List Deed) (c' : Core) : Prop where
  old : ∀ (e : Nat) (x : Heap Finalizer), c.heaps[e]? = some x →
    ∃ y, c'.heaps[e]? = some y ∧ x.Changes (.paused e ∈ deeds) y
  new : ∀ (e : Nat) (y : Heap Finalizer), c.heaps[e]? = none → c'.heaps[e]? = some y →
    ∃ key capacity, y = Heap.empty key capacity

namespace Core

variable {c c' : Core} {deeds : List Deed} {e : Nat}

theorem alters_of_heaps (h : c'.heaps = c.heaps) : c.Alters deeds c' where
  old e x hx := ⟨x, by rw [h, hx], .keeps rfl rfl⟩
  new e y hx hy := by
    rw [h, hx] at hy
    cases hy

theorem alters_addHeap (key capacity : Nat) (l : List (Message Finalizer)) :
    c.Alters deeds { c with cells := c.cells.push ⟨Heap.empty key capacity, l⟩ } := by
  have hheaps : ({ c with cells := c.cells.push ⟨Heap.empty key capacity, l⟩ } : Core).heaps =
      c.heaps.push (Heap.empty key capacity) := Array.map_push
  constructor
  case old =>
    intro e x hx
    refine ⟨x, ?_, .keeps rfl rfl⟩
    rw [hheaps, Array.getElem?_push, if_neg (Array.getElem?_eq_some_iff.mp hx).1.ne]
    exact hx
  case new =>
    intro e y hx hy
    rw [hheaps, Array.getElem?_push] at hy
    split at hy
    · cases hy
      exact ⟨key, capacity, rfl⟩
    · rw [hx] at hy
      cases hy

theorem alters_modifyHeap (hf : ∀ x, c.heaps[e]? = some x → x.Changes (.paused e ∈ deeds) (f x)) :
    c.Alters deeds (c.modifyHeap e f) where
  old e' x hx := by
    rw [heaps_modifyHeap, Array.getElem?_modify]
    split
    · next he =>
        subst he
        exact ⟨f x, by rw [hx]; rfl, hf x hx⟩
    · exact ⟨x, hx, .keeps rfl rfl⟩
  new e' y hx hy := by
    rw [heaps_modifyHeap, Array.getElem?_modify, hx] at hy
    split at hy <;> cases hy

end Core

namespace Act

variable {c c' : Core} {p p' : Multiset Asset} {deeds : List Deed}

theorem alters (h : Act L c p deeds c' p') : c.Alters deeds c' := by
  have onHeap : ∀ {e f}, (∀ x, c.heaps[e]? = some x → (f x).space.books = x.space.books ∧
        (f x).totalAllocated = x.totalAllocated) → c.Alters deeds (c.modifyHeap e f) :=
    fun hf => Core.alters_modifyHeap fun x hx => .keeps (hf x hx).1 (hf x hx).2
  cases h with
  | transfer heaps => exact Core.alters_of_heaps heaps
  | makeHeap capacity => exact Core.alters_addHeap _ capacity []
  | fetch | clone | drop | finish | write =>
    exact onHeap fun _ _ => ⟨Space.books_update fun _ => rfl, rfl⟩
  | store hx size fields f hfit =>
    refine Core.alters_modifyHeap fun y hy => ?_
    cases hx.symm.trans hy
    exact .stores size fields f hfit
  | refer hx hn =>
    refine onHeap fun y hy => ?_
    cases hx.symm.trans hy
    unfold Heap.newReference at hn
    split at hn <;> cases hn
    exact ⟨rfl, rfl⟩
  | adjust | settle | claim | retain | release | discharge => exact onHeap fun _ _ => ⟨rfl, rfl⟩
  | enqueue q k =>
    have hretain : c.Alters [.pushed q k] (c.modifyHeap k.heap (·.retain k.position)) :=
      onHeap fun _ _ => ⟨rfl, rfl⟩
    exact ⟨hretain.old, hretain.new⟩
  | pause hx settings reason =>
    exact Core.alters_modifyHeap fun y _ => .pauses (List.mem_cons_self ..) settings reason
  | makeLine | dequeue | bind | unbind | run | discard => exact Core.alters_of_heaps rfl

end Act

/-- The counters of all spaces agree with their slots. -/
def Core.Accounts (c : Core) : Prop :=
  ∀ (e : Nat) (x : Heap Finalizer), c.heaps[e]? = some x → x.space.Accounts

/-- Whether all bytes that were allocated on a heap are in use, but for so many; on a heap that is
not there none were. -/
structure Core.Settled (c : Core) (e b : Nat) : Prop where
  absent : c.heaps[e]? = none → b = 0
  present : ∀ x, c.heaps[e]? = some x → x.Settled b

namespace Core.Alters

variable {c c' : Core} {deeds : List Deed} {e b : Nat}

theorem accounts (h : c.Alters deeds c') (ht : c.Tidy) (ha : c.Accounts) : c'.Accounts := by
  intro e y hy
  cases hx : c.heaps[e]? with
  | none =>
    obtain ⟨key, capacity, rfl⟩ := h.new e y hx hy
    exact .empty capacity
  | some x =>
    obtain ⟨y', hy', hchanges⟩ := h.old e x hx
    cases hy.symm.trans hy'
    obtain ⟨-, htidy⟩ := ht e x hx
    cases hchanges with
    | keeps books => exact (ha e x hx).of_books books
    | stores size fields f hfit => exact (ha e x hx).insert htidy.sound hfit
    | pauses _ settings reason =>
      exact (Heap.accounts_pause (ha e x hx) htidy.unmarked settings reason).1

/-- Where nobody pauses, what is allocated is in use. -/
theorem settled (h : c.Alters deeds c') (hd : .paused e ∉ deeds) (hs : c.Settled e b) :
    c'.Settled e b := by
  cases hx : c.heaps[e]? with
  | none =>
    have hb := hs.absent hx
    refine ⟨fun _ => hb, fun y hy => ?_⟩
    obtain ⟨key, capacity, rfl⟩ := h.new e y hx hy
    rw [hb]
    rfl
  | some x =>
    obtain ⟨y, hy, hchanges⟩ := h.old e x hx
    refine ⟨fun hnone => ?_, fun y' hy' => ?_⟩
    · rw [hy] at hnone
      cases hnone
    · cases hy.symm.trans hy'
      have hsettled := hs.present x hx
      cases hchanges with
      | keeps books allocated =>
        have hused : y.space.usedBytes = x.space.usedBytes := congrArg Books.usedBytes books
        unfold Heap.Settled
        rw [allocated, hused]
        exact hsettled
      | stores size fields f => exact hsettled.store size fields f
      | pauses hp => exact (hd hp).elim

end Core.Alters

theorem Acts.settled (h : Acts L c p deeds c' p') (hd : .paused e ∉ deeds) (hs : c.Settled e b) :
    c'.Settled e b := by
  induction h with
  | nil => exact hs
  | cons first _ ih =>
    rw [List.mem_append, not_or] at hd
    exact ih hd.2 (first.alters.settled hd.1 hs)

def Errand.bytes : Errand → Nat
  | .parcel _ n | .closing n => n
  | _ => 0

def pausedIn (hs : List Happening) : Nat := (hs.map fun | .paused n => n | _ => 0).sum

def finishedIn (hs : List Happening) : Nat := (hs.map fun | .finished n => n | _ => 0).sum

theorem pausedIn_append (hs hs' : List Happening) :
    pausedIn (hs ++ hs') = pausedIn hs + pausedIn hs' := by
  simp [pausedIn]

theorem finishedIn_append (hs hs' : List Happening) :
    finishedIn (hs ++ hs') = finishedIn hs + finishedIn hs' := by
  simp [finishedIn]

namespace Docket

variable {d d' : Docket} {hs : List Happening}

/-- Bytes that pauses took away whose collections have not ended. -/
def underway (d : Docket) : Nat := (d.errands.map Errand.bytes).sum

theorem underway_stop (d : Docket) : d.stop.underway = d.underway := by
  unfold stop
  split
  · rfl
  · (repeat' split) <;> simp [underway, Errand.bytes]

theorem Step.underway_eq (h : Step d hs d') :
    pausedIn hs + d.underway = finishedIn hs + d'.underway := by
  cases h with
  | stops => rw [underway_stop]; rfl
  | _ => simp [pausedIn, finishedIn, underway, Errand.bytes, Function.comp_def, add_comm]

theorem Course.underway_eq (h : Course d hs d') :
    pausedIn hs + d.underway = finishedIn hs + d'.underway := by
  induction h with
  | refl => rfl
  | tail _ step ih =>
    have hstep := step.underway_eq
    rw [pausedIn_append, finishedIn_append]
    omega

end Docket

namespace World

variable {w : World} {t e b : Nat} {m : Move} {x : Runtime} {reason : Reason}

section Pauses

theorem happenings_of_collects (h : w.Collects m e x reason) :
    w.happenings e m = [.paused (x.heap.pause x.settings reason).reclaimedBytes] := by
  obtain ⟨t, cycle, rest, threads, rfl, hs, -⟩ := h.tasks
  have hsome : (w.step t).isSome = true := by
    by_contra hno
    have hpaused := h.paused
    simp [deeds, hno] at hpaused
  obtain ⟨y, hy, htasks, -⟩ := exists_thread_of_stackOf hs
  have hnext : w.nextTask t = some (.pause e cycle reason) := by simp [nextTask, hy, htasks]
  simp [happenings, hsome, hnext, happeningsOf, replyOf_of_stackOf hs, h.engine]

theorem pausedIn_of_not_paused (h : .paused e ∉ w.deeds m) : pausedIn (w.happenings e m) = 0 := by
  cases m with
  | step t =>
    cases hstep : w.step t with
    | none => simp [happenings, hstep, pausedIn]
    | some w' =>
      obtain ⟨x, task, rest, after, hx, htasks, -, -⟩ := exists_task_of_step hstep
      have hdeeds : w.deeds (.step t) = (w.take t rest).deedsOf t task := by
        rw [deeds, hstep, Option.isSome_some, if_pos rfl, stepDeeds_eq hx htasks]
      have hhappenings : w.happenings e (.step t) = (w.take t rest).happeningsOf t e task := by
        rw [happeningsOf_take]
        simp [happenings, nextTask, hstep, hx, htasks]
      rw [hdeeds] at h
      rw [hhappenings]
      cases task with
      | pause e' cycle reason =>
        simp only [deedsOf, pauseDeeds] at h
        simp only [happeningsOf]
        split
        · next hr hy =>
            have hne : e' ≠ e := by
              rintro rfl
              simp [hr, hy] at h
            rw [if_neg hne]
            rfl
        · rfl
      | finishCycle | runJob =>
        simp only [happeningsOf]
        split <;> rfl
      | discardJobs e' jobs n =>
        cases jobs <;> simp only [happeningsOf] <;> split <;> rfl
      | closeChannel k =>
        simp only [happeningsOf]
        split
        · simp [pausedIn, Function.comp_def]
        · rfl
      | _ => rfl
  | _ => rfl

theorem settled_move (hreg : w.core.Regular) (ht : w.core.Tidy) (ha : w.core.Accounts)
    (h : w.core.Settled e b) : (w.move m).core.Settled e (b + pausedIn (w.happenings e m)) := by
  by_cases hd : .paused e ∈ w.deeds m
  · obtain ⟨x, reason, hcollects⟩ := exists_collects hd
    obtain ⟨x', hx', hheap⟩ := hcollects.heap
    have hx := heaps_core hcollects.engine
    rw [happenings_of_collects hcollects]
    constructor
    case absent =>
      intro hnone
      rw [heaps_core hx'] at hnone
      cases hnone
    case present =>
      intro y hy
      cases (heaps_core hx').symm.trans hy
      rw [hheap]
      exact (h.present x.heap hx).pause (ha e x.heap hx)
        (ht e x.heap hx).2.unmarked x.settings reason
  · rw [pausedIn_of_not_paused hd, add_zero]
    exact (acts_move hreg m).settled hd h

end Pauses

/-- Bytes that pauses of an engine took away whose collections have not ended. -/
def underway (w : World) (e : Nat) : Nat := (w.docket e).underway

/-- The accounts of an engine after moves. -/
structure KeepsAccounts (w : World) (moves : List Move) (e : Nat) (x : Runtime) : Prop where
  /-- Bytes in use are those of the records, and there is room for them; objects are counted. -/
  accounts : x.heap.space.Accounts
  /-- The stack of vacant slots lists the slots without a record, each once. -/
  sound : x.heap.space.Sound
  unmarked : x.heap.space.Unmarked
  /-- What fits does not pass the capacity. -/
  stores : ∀ size, x.heap.space.canFit size = true →
    x.heap.space.usedBytes + size ≤ x.heap.space.capacity
  counts : x.heap.space.liveObjects ≤ x.heap.space.slots.size
  /-- What a pause takes away was counted. -/
  sweeps : ∀ settings reason, (x.heap.pause settings reason).heap.space.usedBytes +
      (x.heap.pause settings reason).reclaimedBytes = x.heap.space.usedBytes ∧
    (x.heap.pause settings reason).heap.space.liveObjects +
      (x.heap.pause settings reason).reclaimedObjects = x.heap.space.liveObjects
  /-- What was allocated is in use, was reported at the end of a collection, or was taken away by a
  pause whose collection has not ended. -/
  allocated : x.heap.totalAllocated = (x.heap.space.usedBytes + finishedIn (w.course e moves) +
      (w.after moves).underway e) % Numeral.wordLimit

section Accounts

variable (s : EngineSpec) (label : String) (moves : List Move)

theorem accounts_after : ((start s label).after moves).core.Accounts :=
  (invariant_after (P := fun c _ _ => c.Tidy ∧
    c.Accounts) (fun _ h hc => ⟨h.tidy hc.1, h.alters.accounts hc.1 hc.2⟩)
    ⟨Core.tidy_empty, fun e x hx => by simp [Core.heaps, core] at hx⟩ s label moves).2

theorem settled_after (e : Nat) :
    ((start s label).after moves).core.Settled e (pausedIn ((start s label).course e moves)) := by
  induction moves using List.reverseRecOn with
  | nil =>
    refine (acts_start s label).settled List.not_mem_nil ⟨fun _ => rfl, fun x hx => ?_⟩
    simp [Core.heaps, core] at hx
  | append_singleton moves m ih =>
    rw [after_append, course_append, pausedIn_append]
    have hmove := settled_move (m := m) (regular_after s label moves) (tidy_after s label moves)
      (accounts_after s label moves) ih
    simpa [course, after] using hmove

theorem pausedIn_course (e : Nat) : pausedIn ((start s label).course e moves) =
    finishedIn ((start s label).course e moves) + ((start s label).after moves).underway e := by
  have hcourse := (course_after (e := e) s label moves).underway_eq
  have hnone : (({} : World).docket e).underway = 0 := rfl
  rwa [hnone, add_zero] at hcourse

/-- **The accounts of a space are exact.**  After any moves the bytes in use are the sum of the
footprints of the records and at most the capacity, objects are counted, vacant slots are listed
once, generations are words other than zero, and nothing is marked.  So no sum passes the capacity
and no difference falls below zero.  Modulo `2 ^ 64`, the bytes that were allocated are those in use
and those that collections took away. -/
theorem keepsAccounts_after {e : Nat} {x : Runtime}
    (hx : ((start s label).after moves).engines[e]? = some x) :
    (start s label).KeepsAccounts moves e x := by
  have haccounts := accounts_after s label moves e x.heap (heaps_core hx)
  obtain ⟨-, htidy⟩ := tidy_heap hx
  constructor
  case accounts => exact haccounts
  case sound => exact htidy.sound
  case unmarked => exact htidy.unmarked
  case stores =>
    intro size hfit
    have hroom : size ≤ x.heap.space.capacity - x.heap.space.usedBytes := of_decide_eq_true hfit
    have hfits := haccounts.fits
    omega
  case counts =>
    rw [haccounts.live]
    exact x.heap.space.card_footprints_le
  case sweeps =>
    intro settings reason
    exact (Heap.accounts_pause haccounts htidy.unmarked settings reason).2
  case allocated =>
    have hsettled := (settled_after s label moves e).present x.heap (heaps_core hx)
    rw [pausedIn_course, Heap.Settled, ← add_assoc] at hsettled
    exact hsettled

/-- One of two objects is given up, and a collection has taken it away but has not ended. -/
def pausedMoves : List Move :=
  .call "main" ::
    (ordered 0 (.allocate "gc" { size := 16 } (some "kept")) 8 ++
      ordered 1 (.allocate "gc" { size := 16 } none) 8 ++
      ordered 2 (.collect "gc" (some .explicit)) 12)

/-- Half of what was allocated is in use, and the other half is on its way into a report. -/
theorem keepsAccounts_paused : ∃ x, ((start startedEngine "gc").after pausedMoves).engines[0]? =
      some x ∧ x.heap.space.liveObjects = 1 ∧
    x.heap.space.footprints.sum = 32 ∧ x.heap.totalAllocated = 32 + 0 + 32 := by
  have hvalues : (((start startedEngine "gc").after pausedMoves).engines[0]?).map (fun x =>
      (x.heap.space.liveObjects, x.heap.space.usedBytes)) = some (1, 32) := by decide +kernel
  have hfinished : finishedIn ((start startedEngine "gc").course 0 pausedMoves) = 0 := by
    decide +kernel
  have hunderway : ((start startedEngine "gc").after pausedMoves).underway 0 = 32 := by
    decide +kernel
  obtain ⟨x, hx, hvalues⟩ := Option.map_eq_some_iff.mp hvalues
  have hlive : x.heap.space.liveObjects = 1 := congrArg Prod.fst hvalues
  have hused : x.heap.space.usedBytes = 32 := congrArg Prod.snd hvalues
  have hkeeps := keepsAccounts_after startedEngine "gc" pausedMoves hx
  refine ⟨x, hx, hlive, hkeeps.accounts.used.symm.trans hused, ?_⟩
  rw [hkeeps.allocated, hfinished, hunderway, hused]
  decide

end Accounts

end World

end ManagedHeap
