import ManagedHeap.Safepoint.Operation
import Mathlib.Data.List.Nodup

/-!
# What a section does to a registry

**Input.**  A registry and a call on it, or the rest of one.

**Algorithm.**  `Registry.step` has one branch for each thing that can happen to a call;
`Registry.Section` names them.  Everything that holds of the records of threads between two sections
is shown once for each of these cases.

**Results.**
* `Registry.section_of_step`: the cases of a section.
* `Registry.Sound.step`: numbers are given out once, and a thread that runs or was asked to stop has
  its flag up exactly if it was asked, and was asked exactly if a pause or a suspension holds it.
* `Registry.Still.step`: while the world stands still nobody but the initiator runs.
-/

namespace ManagedHeap

variable {f : Mutator → Mutator} {i : Option ThreadId}

namespace Mutator

variable {m : Mutator}

@[simp]
theorem id_requestStop : m.requestStop.id = m.id := by
  unfold requestStop
  split <;> rfl

@[simp]
theorem suspendCount_requestStop : m.requestStop.suspendCount = m.suspendCount := by
  unfold requestStop
  split <;> rfl

@[simp]
theorem id_withdrawRequest : m.withdrawRequest.id = m.id := rfl

@[simp]
theorem suspendCount_withdrawRequest : m.withdrawRequest.suspendCount = m.suspendCount := rfl

@[simp]
theorem id_resumeRunning : m.resumeRunning.id = m.id := by
  unfold resumeRunning
  split
  · exact id_requestStop
  · rfl

@[simp]
theorem suspendCount_resumeRunning : m.resumeRunning.suspendCount = m.suspendCount := by
  unfold resumeRunning
  split
  · exact suspendCount_requestStop
  · rfl

@[simp]
theorem isStopped_requestStop : m.requestStop.isStopped = m.isStopped := by
  unfold requestStop
  split
  · next h => simp [isStopped, h]
  · rfl

@[simp]
theorem isStopped_withdrawRequest : m.withdrawRequest.isStopped = m.isStopped := by
  by_cases h : m.status = .safepointRequested <;> simp [withdrawRequest, isStopped, h]

@[simp]
theorem isStopped_resumeRunning : m.resumeRunning.isStopped = false := by
  unfold resumeRunning
  split
  · rw [isStopped_requestStop]
    rfl
  · rfl

theorem status_requestStop_ne : m.requestStop.status ≠ .running := by
  unfold requestStop
  split
  · exact nofun
  · next h => exact h

theorem isStopped_iff : m.isStopped = true ↔ m.status = .suspended ∨ m.status = .blocked := by
  simp [isStopped]

theorem requestStop_of_isStopped (h : m.isStopped = true) : m.requestStop = m := by
  have hrunning : m.status ≠ .running := by
    rcases isStopped_iff.mp h with hs | hs <;> simp [hs]
  simp [requestStop, hrunning]

end Mutator

namespace Registry

variable {r r' : Registry} {thread : Nat} {id target : ThreadId} {m m' : Mutator}

def ids (r : Registry) : List ThreadId := r.mutators.map (·.id)

/-- Whether a pause that it did not start keeps a thread from running. -/
def Pauses (r : Registry) (id : ThreadId) : Prop := r.worldStopped = true ∧ r.initiator ≠ some id

/-- Whether a thread has to stop, for a suspension or for a pause. -/
def Stops (r : Registry) (m : Mutator) : Prop := 0 < m.suspendCount ∨ r.Pauses m.id

section Entries

theorem mem_update : m' ∈ (r.update id f).mutators ↔
    ∃ m ∈ r.mutators, (if m.id = id then f m else m) = m' := by
  exact List.mem_map

theorem forall_mem_update {P : Mutator → Prop} (h : ∀ m ∈ r.mutators, P m)
    (hf : ∀ m ∈ r.mutators, m.id = id → P m → P (f m)) : ∀ m ∈ (r.update id f).mutators, P m := by
  intro m' hm'
  obtain ⟨m, hm, rfl⟩ := mem_update.mp hm'
  split
  · next hid => exact hf m hm hid (h m hm)
  · exact h m hm

theorem ids_update (hf : ∀ m, (f m).id = m.id) : (r.update id f).ids = r.ids := by
  unfold ids update
  rw [List.map_map]
  refine List.map_congr_left fun m _ => ?_
  by_cases hid : m.id = id <;> simp [hid, hf]

theorem ids_claim : (r.claim i).ids = r.ids := by
  unfold ids claim
  rw [List.map_map]
  refine List.map_congr_left fun m _ => ?_
  by_cases hi : i = some m.id
  · simp [hi]
  · simp [hi, Mutator.id_requestStop]

theorem ids_release : r.release.ids = r.ids := by
  unfold ids release
  rw [List.map_map]
  refine List.map_congr_left fun m _ => ?_
  by_cases hz : m.suspendCount = 0 <;> simp [hz]

theorem mem_of_get? (h : r.get? id = some m) : m ∈ r.mutators ∧ m.id = id :=
  ⟨List.mem_of_find?_eq_some h, by simpa using List.find?_some h⟩

theorem get?_of_mem (hd : r.ids.Nodup) (hm : m ∈ r.mutators) : r.get? m.id = some m := by
  cases hget : r.get? m.id with
  | none =>
    have := List.find?_eq_none.mp hget m hm
    simp at this
  | some m' =>
    obtain ⟨hm', hid⟩ := mem_of_get? hget
    rw [List.inj_on_of_nodup_map hd hm' hm hid]

theorem mustPark_iff (hd : r.ids.Nodup) (hm : m ∈ r.mutators) : r.mustPark m.id = true ↔
    r.Stops m := by
  unfold mustPark Stops Pauses
  rw [get?_of_mem hd hm]
  simp

theorem holds_iff : r.holds id hold = true ↔
    ∃ m, r.get? id = some m ∧ (hold = .any ∧ 0 < m.suspendCount ∨ r.Pauses id) := by
  cases hold with
  | any =>
    show r.mustPark id = true ↔ _
    unfold mustPark Pauses
    cases r.get? id <;> simp
  | pause =>
    show r.heldByPause id = true ↔ _
    unfold heldByPause Pauses
    cases r.get? id <;> simp

/-- Whoever nothing holds is not held by a pause, nor by a suspension if it looks for those. -/
theorem free_of_holds (hold : Hold) (hm : r.get? id = some m) (h : r.holds id hold = false) :
    ¬r.Pauses id ∧ (hold = .any → m.suspendCount = 0) := by
  have hfree : ¬(hold = .any ∧ 0 < m.suspendCount ∨ r.Pauses id) := fun hheld => by
    cases (holds_iff.mpr ⟨m, hm, hheld⟩).symm.trans h
  exact ⟨fun hp => hfree (.inr hp),
    fun hany => Nat.eq_zero_of_not_pos fun hpos => hfree (.inl ⟨hany, hpos⟩)⟩

theorem get?_of_map (hg : ∀ m, (g m).id = m.id) (h : r'.mutators = r.mutators.map g) :
    r'.get? target = (r.get? target).map g := by
  unfold get?
  rw [h, List.find?_map]
  congr 2
  funext m
  simp [hg]

theorem get?_update (hf : ∀ m, (f m).id = m.id) (hm : r.get? target = some m) :
    (r.update id f).get? target = some (if target = id then f m else m) := by
  have hg : ∀ k : Mutator, (if k.id = id then f k else k).id = k.id := by
    intro k
    split
    · exact hf k
    · rfl
  rw [get?_of_map hg rfl, hm, Option.map_some, (mem_of_get? hm).2]

theorem get?_filter_of_ne (h : target ≠ id) :
    ({ r with mutators := r.mutators.filter (·.id != target) } : Registry).get? id = r.get? id := by
  unfold get?
  rw [List.find?_filter]
  congr 1
  funext m
  by_cases hm : m.id = id
  · simp [hm, Ne.symm h]
  · simp [hm]

theorem get?_filter_self :
    ({ r with mutators := r.mutators.filter (·.id != id) } : Registry).get? id = none := by
  unfold get?
  rw [List.find?_eq_none]
  intro m hm
  simpa using (List.mem_filter.mp hm).2

end Entries

/-- What can happen in one section of a call. -/
inductive Section (r : Registry) (thread : Nat) : Operation → Registry → Progress → Prop
  | comesIn {id : ThreadId} (h : r.mustPark id = true) :
      Section r thread (.poll id) (r.park thread id) (.continues (.parked id .any))
  | passes {id : ThreadId} (h : r.mustPark id = false) :
      Section r thread (.poll id) (r.update id Mutator.withdrawRequest) .finished
  | blocks {id : ThreadId} : Section r thread (.enterBlocking id) (r.update id fun m =>
        { m with status := .blocked }).wakeAll .finished
  /-- A thread that leaves a region is held. -/
  | stays {id : ThreadId} {hold : Hold} (h : r.holds id hold = true) :
      Section r thread (.leaveBlocking id hold) (r.park thread id) (.continues (.parked id hold))
  | leaves {id : ThreadId} {hold : Hold} (h : r.holds id hold = false) :
      Section r thread (.leaveBlocking id hold) (r.update id Mutator.resumeRunning) .finished
  /-- A parked thread is still held. -/
  | sleepsOn {id : ThreadId} {hold : Hold} (h : r.holds id hold = true) :
      Section r thread (.parked id hold) (r.sleep thread) (.continues (.parked id hold))
  | goesOn {id : ThreadId} {hold : Hold} (h : r.holds id hold = false) :
      Section r thread (.parked id hold) (r.update id Mutator.resumeRunning).wakeAll .finished
  /-- There is no such thread. -/
  | misses {op : Operation} {target : ThreadId}
      (hop : op = .requestSuspend target ∨ op = .resume target) (hm : r.get? target = none) :
      Section r thread op r (.answered (.failed (.threadNotFound target)))
  | raises {target : ThreadId} {m : Mutator} (hm : r.get? target = some m) :
      Section r thread (.requestSuspend target) (r.update target fun k =>
        { k with suspendCount := min (m.suspendCount + 1) suspendCountMax }.requestStop)
      (.answered (.count (min (m.suspendCount + 1) suspendCountMax)))
  | finds {target : ThreadId} {m : Mutator} (hm : r.get? target = some m) (h : m.suspendCount = 0) :
      Section r thread (.resume target) r (.answered (.change none))
  | lowers {target : ThreadId} {m : Mutator} (hm : r.get? target = some m)
      (h : 1 < m.suspendCount) : Section r thread (.resume target) (r.update target fun k =>
        { k with suspendCount := m.suspendCount - 1 })
      (.answered (.change (some (m.suspendCount - 1))))
  /-- The last suspension goes, and a pause still holds the thread. -/
  | leavesHeld {target : ThreadId} {m : Mutator} (hm : r.get? target = some m)
      (h : m.suspendCount = 1) (hp : r.Pauses target) : Section r thread (.resume target)
      (r.update target fun k => { k with suspendCount := 0 }).wakeAll (.answered (.change (some 0)))
  | frees {target : ThreadId} {m : Mutator} (hm : r.get? target = some m) (h : m.suspendCount = 1)
      (hp : ¬r.Pauses target) : Section r thread (.resume target)
      ((r.update target fun k => { k with suspendCount := 0 }).update target
        Mutator.withdrawRequest).wakeAll (.answered (.change (some 0)))
  /-- Whoever waits for a suspension only looks. -/
  | looks {target : ThreadId} {ms : Nat} {asleep : List Nat} {p : Progress}
      (hp : (∃ v, p = .answered v) ∨ p = .continues (.awaitSuspension target ms)) :
      Section r thread (.awaitSuspension target ms) { r with asleep := asleep } p
  | waits {i : Option ThreadId} (h : r.worldStopped = true) :
      Section r thread (.stopWorld i) (r.sleep thread) (.continues (.stopWorld i))
  /-- Everybody stands still at once. -/
  | stops {i : Option ThreadId} (h : r.worldStopped = false)
      (hall : (r.claim i).allStopped = true) :
      Section r thread (.stopWorld i) (r.claim i) (.answered (.count ((r.claim i).held i)))
  | asks {i : Option ThreadId} (h : r.worldStopped = false)
      (hlate : (r.claim i).allStopped = false) :
      Section r thread (.stopWorld i) ((r.claim i).sleep thread) (.continues (.awaitStops i))
  | arrives {i : Option ThreadId} (hall : r.allStopped = true) :
      Section r thread (.awaitStops i) (r.wake thread) (.answered (.count (r.held i)))
  | givesUp {i : Option ThreadId} {e : Error} :
      Section r thread (.awaitStops i) r.release.wakeAll (.answered (.failed e))
  | waitsOn {i : Option ThreadId} (hlate : r.allStopped = false) :
      Section r thread (.awaitStops i) (r.sleep thread) (.continues (.awaitStops i))
  | releases : Section r thread .releaseWorld r.release.wakeAll .finished
  | attaches {name : String} :
      Section r thread (.attach name)
        { r with
          mutators := r.mutators ++
            [if r.worldStopped then ({ id := r.nextId, name := name } : Mutator).requestStop
            else { id := r.nextId, name := name }]
          nextId := r.nextId + 1 } (.answered (.count r.nextId))
  | detaches {id : ThreadId} : Section r thread (.detach id)
      ({ r with mutators := r.mutators.filter (·.id != id) } : Registry).wakeAll .finished

variable {op : Operation} {p : Progress}

theorem section_of_step (h : r.step thread expired op = some (r', p)) :
    r.Section thread op r' p := by
  cases op with
  | poll id =>
    simp only [step] at h
    split at h <;> cases h
    · next hpark => exact .comesIn hpark
    · next hpark => exact .passes (by simpa using hpark)
  | enterBlocking id =>
    cases h
    exact .blocks
  | leaveBlocking id hold =>
    simp only [step] at h
    split at h <;> cases h
    · next hheld => exact .stays hheld
    · next hheld => exact .leaves (by simpa using hheld)
  | parked id hold =>
    simp only [step] at h
    (repeat' split at h) <;> cases h
    · next hheld => exact .sleepsOn hheld
    · next hheld => exact .goesOn (by simpa using hheld)
  | requestSuspend target =>
    simp only [step] at h
    split at h <;> cases h
    · next hm => exact .misses (.inl rfl) hm
    · next m hm => exact .raises hm
  | resume target =>
    simp only [step] at h
    split at h
    · next hm =>
        cases h
        exact .misses (.inr rfl) hm
    · next m hm =>
        split at h
        · next hzero =>
            cases h
            exact .finds hm hzero
        · next hpos =>
            split at h
            · next hlast =>
                have hone : m.suspendCount = 1 := by omega
                rw [hlast] at h
                split at h <;> cases h
                · next hheld => exact .leavesHeld hm hone (by simpa [Pauses] using hheld)
                · next hheld => exact .frees hm hone (by simpa [Pauses] using hheld)
            · cases h
              exact .lowers hm (by omega)
  | awaitSuspension target ms =>
    simp only [step] at h
    (repeat' split at h) <;> cases h
    · exact .looks (.inl ⟨_, rfl⟩)
    · exact .looks (.inl ⟨_, rfl⟩)
    · exact .looks (.inl ⟨_, rfl⟩)
    · exact .looks (.inr rfl)
  | stopWorld i =>
    simp only [step] at h
    (repeat' split at h) <;> cases h
    · next hstopped => exact .waits hstopped
    · next hfree hall => exact .stops (by simpa using hfree) hall
    · next hfree hlate => exact .asks (by simpa using hfree) (Bool.eq_false_iff.mpr hlate)
  | awaitStops i =>
    simp only [step] at h
    split at h
    · cases h
    · split at h
      · next hall =>
          cases h
          exact .arrives hall
      · next hlate =>
          split at h <;> cases h
          · exact .givesUp
          · exact .waitsOn (Bool.eq_false_iff.mpr hlate)
  | releaseWorld =>
    cases h
    exact .releases
  | attach name =>
    cases h
    exact .attaches
  | detach id =>
    cases h
    exact .detaches

section Reports

theorem Section.of_continues (h : r.Section thread op r' (.continues op')) :
    op' = op ∨ (∃ id hold, op' = .parked id hold ∧ (op = .poll id ∨ op = .leaveBlocking id hold)) ∨
      ∃ i, op = .stopWorld i ∧ op' = .awaitStops i := by
  cases h with
  | comesIn => exact .inr (.inl ⟨_, _, rfl, .inl rfl⟩)
  | stays => exact .inr (.inl ⟨_, _, rfl, .inr rfl⟩)
  | sleepsOn | waits | waitsOn => exact .inl rfl
  | looks hp =>
    rcases hp with ⟨v, hv⟩ | hv
    · cases hv
    · cases hv
      exact .inl rfl
  | asks => exact .inr (.inr ⟨_, rfl, rfl⟩)

variable (h : r.Section thread op r' p)

include h

/-- Threads get their numbers when they attach, and give them back when they detach. -/
theorem Section.ids :
    (∃ name, op = .attach name ∧ r'.ids = r.ids ++ [r.nextId] ∧ r'.nextId = r.nextId + 1 ∧
      p = .answered (.count r.nextId)) ∨ (∃ id, op = .detach id ∧ r'.ids = r.ids.filter (· != id) ∧
      r'.nextId = r.nextId ∧ p = .finished) ∨ (∀ name, op ≠ .attach name) ∧
    (∀ id, op ≠ .detach id) ∧ r'.ids = r.ids ∧ r'.nextId = r.nextId := by
  have same : ∀ {f id}, (∀ m, (f m).id = m.id) → (r.update id f).ids = r.ids :=
    fun hf => ids_update hf
  cases h with
  | attaches =>
    refine .inl ⟨_, rfl, ?_, rfl, rfl⟩
    unfold Registry.ids
    split <;> simp
  | detaches =>
    refine .inr (.inl ⟨_, rfl, ?_, rfl, rfl⟩)
    unfold Registry.ids
    simp only [wakeAll, List.filter_map]
    rfl
  | misses hop =>
    rcases hop with rfl | rfl <;>
      exact .inr (.inr ⟨nofun, nofun, rfl, rfl⟩)
  | comesIn | blocks | stays | lowers | leavesHeld | passes =>
    exact .inr (.inr ⟨nofun, nofun, same fun _ => rfl, rfl⟩)
  | leaves | goesOn =>
    exact .inr (.inr ⟨nofun, nofun, same fun _ => Mutator.id_resumeRunning, rfl⟩)
  | raises =>
    exact .inr (.inr ⟨nofun, nofun, same fun _ => Mutator.id_requestStop, rfl⟩)
  | frees =>
    refine .inr (.inr ⟨nofun, nofun, ?_, rfl⟩)
    exact (ids_update (f := Mutator.withdrawRequest) fun _ => rfl).trans (same fun _ => rfl)
  | stops | asks =>
    refine .inr (.inr ⟨nofun, nofun, ?_, rfl⟩)
    exact ids_claim
  | givesUp | releases =>
    refine .inr (.inr ⟨nofun, nofun, ?_, rfl⟩)
    exact ids_release
  | _ => exact .inr (.inr ⟨nofun, nofun, rfl, rfl⟩)

theorem Section.nextId_le : r.nextId ≤ r'.nextId := by
  rcases h.ids with ⟨_, -, -, hnext, -⟩ | ⟨_, -, -, hnext, -⟩ | ⟨-, -, -, hnext⟩
  · rw [hnext]
    exact Nat.le_succ _
  · exact Nat.le_of_eq hnext.symm
  · exact Nat.le_of_eq hnext.symm

theorem Section.mem_ids (hid : id ∈ r.ids) (hop : op ≠ .detach id) : id ∈ r'.ids := by
  rcases h.ids with ⟨_, -, hids, -⟩ | ⟨gone, rfl, hids, -⟩ | ⟨-, -, hids, -⟩
  · rw [hids]
    exact List.mem_append_left _ hid
  · rw [hids]
    refine List.mem_filter.mpr ⟨hid, bne_iff_ne.mpr ?_⟩
    rintro rfl
    exact hop rfl
  · rwa [hids]

theorem Section.flags : (∃ i, op = .stopWorld i ∧ r.worldStopped = false ∧ r'.worldStopped = true ∧
      r'.initiator = i ∧ (p = .continues (.awaitStops i) ∨ ∃ k, p = .answered (.count k))) ∨
    (∃ i e, op = .awaitStops i ∧ r'.worldStopped = false ∧
      r'.initiator = none ∧ p = .answered (.failed e)) ∨
    (op = .releaseWorld ∧ r'.worldStopped = false ∧ r'.initiator = none ∧ p = .finished) ∨
    (r'.worldStopped = r.worldStopped ∧ r'.initiator = r.initiator ∧ op ≠ .releaseWorld ∧
      (∀ i, op = .stopWorld i → r.worldStopped = true ∧ p = .continues op) ∧
      ∀ i, op = .awaitStops i → p = .continues op ∨ ∃ k, p = .answered (.count k)) := by
  cases h with
  | waits h =>
    exact .inr (.inr (.inr ⟨rfl, rfl, nofun, fun _ _ => ⟨h, rfl⟩, nofun⟩))
  | stops h => exact .inl ⟨_, rfl, h, rfl, rfl, .inr ⟨_, rfl⟩⟩
  | asks h => exact .inl ⟨_, rfl, h, rfl, rfl, .inl rfl⟩
  | arrives =>
    exact .inr (.inr (.inr ⟨rfl, rfl, nofun, nofun, fun _ _ => .inr ⟨_, rfl⟩⟩))
  | givesUp => exact .inr (.inl ⟨_, _, rfl, rfl, rfl, rfl⟩)
  | waitsOn =>
    exact .inr (.inr (.inr ⟨rfl, rfl, nofun, nofun, fun _ _ => .inl rfl⟩))
  | releases => exact .inr (.inr (.inl ⟨rfl, rfl, rfl, rfl⟩))
  | misses hop =>
    rcases hop with rfl | rfl <;>
      exact .inr (.inr (.inr ⟨rfl, rfl, nofun, nofun, nofun⟩))
  | _ =>
    exact .inr (.inr (.inr ⟨rfl, rfl, nofun, nofun, nofun⟩))

end Reports

end Registry

section Records

/-- Whether a section has nothing to do with the record of a thread. -/
def Operation.Spares (r : Registry) (id : ThreadId) (m : Mutator) : Operation → Prop
  | .poll target | .enterBlocking target | .leaveBlocking target _ | .requestSuspend target
  | .detach target =>
    target ≠ id
  | .parked target hold => target = id → r.holds id hold = true
  | .resume target => target = id → m.suspendCount = 0
  | _ => True

/-- What a section in which the pause does not change makes of the record of a thread. -/
inductive Mutator.Edits (r : Registry) (id : ThreadId) (m : Mutator) : Operation → Mutator → Prop
  | keeps {op : Operation} (h : op.Spares r id m) : Edits r id m op m
  | comesIn : Edits r id m (.poll id) { m with status := .suspended }
  | passes (h : r.mustPark id = false) : Edits r id m (.poll id) m.withdrawRequest
  | blocks : Edits r id m (.enterBlocking id) { m with status := .blocked }
  | stays {hold : Hold} (h : r.holds id hold = true) :
      Edits r id m (.leaveBlocking id hold) { m with status := .suspended }
  | leaves {hold : Hold}
      (h : r.holds id hold = false) : Edits r id m (.leaveBlocking id hold) m.resumeRunning
  | goesOn {hold : Hold}
      (h : r.holds id hold = false) : Edits r id m (.parked id hold) m.resumeRunning
  | raises : Edits r id m (.requestSuspend id)
      { m with suspendCount := min (m.suspendCount + 1) suspendCountMax }.requestStop
  | lowers (h : 1 < m.suspendCount) :
      Edits r id m (.resume id) { m with suspendCount := m.suspendCount - 1 }
  | leavesHeld (h : m.suspendCount = 1)
      (hp : r.Pauses id) : Edits r id m (.resume id) { m with suspendCount := 0 }
  | frees (h : m.suspendCount = 1) (hp : ¬r.Pauses id) :
      Edits r id m (.resume id) { m with suspendCount := 0 }.withdrawRequest

/-- While the world stands still, nobody runs after a section who did not before. -/
theorem Mutator.Edits.quiet {r : Registry} {id : ThreadId} {m m' : Mutator}
    {op : Operation} (h : m.Edits r id op m') (hm : r.get? id = some m) (hp : r.Pauses id) :
    (m.status ≠ .running → m'.status ≠ .running) ∧ (m.isStopped = true → m'.isStopped = true) := by
  cases h with
  | keeps | lowers | leavesHeld => exact ⟨fun h => h, fun h => h⟩
  | comesIn | blocks | stays => exact ⟨nofun, fun _ => rfl⟩
  | passes hfree => exact ((Registry.free_of_holds .any hm hfree).1 hp).elim
  | leaves hfree | goesOn hfree => exact ((Registry.free_of_holds _ hm hfree).1 hp).elim
  | raises => exact ⟨fun _ => Mutator.status_requestStop_ne,
        fun h => by rw [Mutator.isStopped_requestStop]; exact h⟩
  | frees _ hfree => exact (hfree hp).elim

namespace Registry

variable {r r' : Registry} {thread : Nat} {id target : ThreadId} {op : Operation} {p : Progress}

/-- What a section makes of the record of a thread. -/
inductive Turns (r r' : Registry) (id : ThreadId) : Operation → Option Mutator → Option Mutator →
    Prop
  | edits {op : Operation} {m m' : Mutator} (hp : r'.Pauses id ↔ r.Pauses id)
      (h : m.Edits r id op m') : Turns r r' id op (some m) (some m')
  /-- A pause begins, and the thread is asked to stop unless it is the initiator. -/
  | asked {i : Option ThreadId} {m : Mutator} (hfree : r.worldStopped = false) (hp : r'.Pauses id) :
      Turns r r' id (.stopWorld i) (some m) (some m.requestStop)
  /-- A pause is over. -/
  | released {op : Operation} {m : Mutator}
      (hop : op = .releaseWorld ∨ ∃ i, op = .awaitStops i) (hp : ¬r'.Pauses id) :
      Turns r r' id op (some m) (some (if m.suspendCount = 0 then m.withdrawRequest else m))
  | comes {name : String} (hid : id = r.nextId)
      (hp : r'.Pauses id ↔ r.Pauses id) : Turns r r' id (.attach name) none
      (some (if r.worldStopped then ({ id := id, name := name } : Mutator).requestStop
        else { id := id, name := name }))
  | goes {m : Mutator} : Turns r r' id (.detach id) (some m) none
  | absent {op : Operation} : Turns r r' id op none none

theorem turns_update (hmutators : r'.mutators = (r.update target f).mutators)
    (hp : r'.Pauses id ↔ r.Pauses id)
    (hid : ∀ m, (f m).id = m.id) (hother : target ≠ id → ∀ m, op.Spares r id m)
    (hself : ∀ m, r.get? target = some m → m.Edits r target op (f m)) :
    r.Turns r' id op (r.get? id) (r'.get? id) := by
  have hget : r'.get? id = (r.get? id).map fun m => if m.id = target then f m else m := by
    refine get?_of_map (fun m => ?_) hmutators
    split
    · exact hid m
    · rfl
  rw [hget]
  cases hm : r.get? id with
  | none => exact .absent
  | some m =>
    rw [Option.map_some, (mem_of_get? hm).2]
    split
    · next htarget =>
        subst htarget
        exact .edits hp (hself m hm)
    · next htarget => exact .edits hp (.keeps (hother (Ne.symm htarget) m))

theorem turns_of_eq (hmutators : r'.mutators = r.mutators) (hp : r'.Pauses id ↔ r.Pauses id)
    (h : ∀ m, r.get? id = some m → op.Spares r id m) :
    r.Turns r' id op (r.get? id) (r'.get? id) := by
  have hget : r'.get? id = r.get? id := by rw [get?, hmutators, get?]
  rw [hget]
  cases hm : r.get? id with
  | none => exact .absent
  | some m => exact .edits hp (.keeps (h m hm))

theorem turns_claim (hfree : r.worldStopped = false)
    (hmutators : r'.mutators = (r.claim i).mutators) (hp : r'.Pauses id ↔ i ≠ some id) :
    r.Turns r' id (.stopWorld i) (r.get? id) (r'.get? id) := by
  have hget : r'.get? id = (r.get? id).map fun m => if i = some m.id then m else m.requestStop := by
    refine get?_of_map (fun m => ?_) hmutators
    split
    · rfl
    · exact Mutator.id_requestStop
  rw [hget]
  cases hm : r.get? id with
  | none => exact .absent
  | some m =>
    rw [Option.map_some, (mem_of_get? hm).2]
    split
    · next hi => exact .edits ⟨fun h => (hp.mp h hi).elim,
        fun h => by cases hfree.symm.trans h.1⟩ (.keeps trivial)
    · next hi => exact .asked hfree (hp.mpr hi)

theorem turns_release (hmutators : r'.mutators = r.release.mutators) (hp : ¬r'.Pauses id)
    (hop : op = .releaseWorld ∨ ∃ i, op = .awaitStops i) :
    r.Turns r' id op (r.get? id) (r'.get? id) := by
  have hget : r'.get? id = (r.get? id).map fun m => if m.suspendCount = 0 then m.withdrawRequest
      else m := get?_of_map (fun m => by split <;> rfl) hmutators
  rw [hget]
  cases r.get? id with
  | none => exact .absent
  | some m => exact .released hop hp

/-- **What a section makes of a record.** -/
theorem Section.turns (h : r.Section thread op r' p) (id : ThreadId) :
    r.Turns r' id op (r.get? id) (r'.get? id) := by
  cases h with
  | comesIn => exact turns_update rfl Iff.rfl (fun _ => rfl) (fun hne _ => hne) fun _ _ => .comesIn
  | passes hpark =>
    exact turns_update rfl Iff.rfl (fun _ => rfl) (fun hne _ => hne) fun _ _ => .passes hpark
  | blocks => exact turns_update rfl Iff.rfl (fun _ => rfl) (fun hne _ => hne) fun _ _ => .blocks
  | stays hheld =>
    exact turns_update rfl Iff.rfl (fun _ => rfl) (fun hne _ => hne) fun _ _ => .stays hheld
  | leaves hfree =>
    exact turns_update rfl Iff.rfl (fun _ => Mutator.id_resumeRunning) (fun hne _ => hne) fun _ _ =>
      .leaves hfree
  | goesOn hfree =>
    exact turns_update rfl Iff.rfl (fun _ => Mutator.id_resumeRunning) (fun hne _ heq =>
      (hne heq).elim) fun _ _ => .goesOn hfree
  | raises hm =>
    refine turns_update rfl Iff.rfl (fun _ => Mutator.id_requestStop) (fun hne _ => hne) fun k hk =>
      ?_
    cases hk.symm.trans hm
    exact .raises
  | lowers hm hmany =>
    refine turns_update rfl Iff.rfl (fun _ => rfl) (fun hne _ heq => (hne heq).elim) fun k hk => ?_
    cases hk.symm.trans hm
    exact .lowers hmany
  | leavesHeld hm hlast hp =>
    refine turns_update rfl Iff.rfl (fun _ => rfl) (fun hne _ heq => (hne heq).elim) fun k hk => ?_
    cases hk.symm.trans hm
    exact .leavesHeld hlast hp
  | @frees target m hm hlast hp =>
    have hone : ((r.update target fun k =>
          { k with suspendCount := 0 }).update target Mutator.withdrawRequest) =
        r.update target fun k => Mutator.withdrawRequest { k with suspendCount := 0 } := by
      unfold Registry.update
      congr 1
      rw [List.map_map]
      refine List.map_congr_left fun k _ => ?_
      by_cases hk : k.id = target <;> simp [hk]
    refine turns_update (f := fun k => Mutator.withdrawRequest { k with suspendCount := 0 })
      (congrArg (·.wakeAll.mutators) hone) Iff.rfl (fun _ => rfl) (fun hne _ heq => (hne heq).elim)
      fun k hk => ?_
    cases hk.symm.trans hm
    exact .frees hlast hp
  | misses hop hnone =>
    rcases hop with rfl | rfl
    · refine turns_of_eq rfl Iff.rfl ?_
      rintro m hm rfl
      cases hnone.symm.trans hm
    · refine turns_of_eq rfl Iff.rfl ?_
      rintro m hm rfl
      cases hnone.symm.trans hm
  | finds hm hzero =>
    refine turns_of_eq rfl Iff.rfl ?_
    rintro k hk rfl
    cases hm.symm.trans hk
    exact hzero
  | sleepsOn hheld =>
    refine turns_of_eq rfl Iff.rfl ?_
    rintro k - rfl
    exact hheld
  | looks | waits | arrives | waitsOn => exact turns_of_eq rfl Iff.rfl fun _ _ => trivial
  | stops hfree | asks hfree => exact turns_claim hfree rfl ⟨And.right, fun hi => ⟨rfl, hi⟩⟩
  | givesUp => exact turns_release rfl (fun hp => Bool.noConfusion hp.1) (.inr ⟨_, rfl⟩)
  | releases => exact turns_release rfl (fun hp => Bool.noConfusion hp.1) (.inl rfl)
  | @attaches name =>
    have hnew : (if r.worldStopped then ({ id := r.nextId, name := name } : Mutator).requestStop
        else { id := r.nextId, name := name }).id = r.nextId := by split <;> simp
    unfold get?
    rw [List.find?_append]
    cases r.mutators.find? (·.id == id) with
    | some m => exact .edits Iff.rfl (.keeps trivial)
    | none =>
      rw [Option.none_or, List.find?_singleton, hnew]
      by_cases hid : r.nextId = id
      · subst hid
        rw [if_pos (beq_self_eq_true r.nextId)]
        exact .comes rfl Iff.rfl
      · rw [beq_eq_false_iff_ne.mpr hid]
        exact .absent
  | @detaches target =>
    by_cases hne : target = id
    · subst hne
      have hgone : ({ r with mutators :=
            r.mutators.filter (·.id != target) } : Registry).wakeAll.get? target = none :=
        get?_filter_self
      rw [hgone]
      cases r.get? target with
      | none => exact .absent
      | some m => exact .goes
    · have hsame :
          ({ r with mutators := r.mutators.filter (·.id != target) } : Registry).wakeAll.get? id =
          r.get? id := get?_filter_of_ne hne
      rw [hsame]
      cases r.get? id with
      | none => exact .absent
      | some m => exact .edits Iff.rfl (.keeps hne)

end Registry

end Records

namespace Registry

variable {r r' : Registry} {thread : Nat} {id : ThreadId} {m m' : Mutator} {op : Operation}
  {p : Progress}

section Polls

/-- The flag of a thread that runs is down and nothing stops it; the flag of a thread that was asked
is up and something does. -/
structure Polled (r : Registry) (m : Mutator) : Prop where
  running : m.status = .running → m.pollRequested = false ∧ ¬r.Stops m
  requested : m.status = .safepointRequested → m.pollRequested = true ∧ r.Stops m

theorem polled_of_isStopped (h : m.isStopped = true) : r.Polled m := by
  rcases Mutator.isStopped_iff.mp h with hs | hs <;> constructor <;> simp [hs]

theorem Polled.congr (h : r.Polled m) (hstatus : m'.status = m.status)
    (hpoll : m'.pollRequested = m.pollRequested) (hstops : r'.Stops m' ↔ r.Stops m) :
    r'.Polled m' := by
  constructor
  · rw [hstatus, hpoll, hstops]
    exact h.running
  · rw [hstatus, hpoll, hstops]
    exact h.requested

theorem polled_withdrawRequest (h : ¬r.Stops m) : r.Polled m.withdrawRequest := by
  constructor
  · exact fun _ => ⟨rfl, h⟩
  · intro hs
    unfold Mutator.withdrawRequest at hs
    split at hs
    · cases hs
    · contradiction

theorem polled_requestStop (hm : m.status = .safepointRequested → m.pollRequested = true)
    (h : r.Stops m) : r.Polled m.requestStop := by
  have hstops : r.Stops m.requestStop := by
    unfold Stops
    rw [Mutator.suspendCount_requestStop, Mutator.id_requestStop]
    exact h
  refine ⟨fun hs => absurd hs Mutator.status_requestStop_ne, fun hs => ⟨?_, hstops⟩⟩
  unfold Mutator.requestStop at hs ⊢
  split
  · rfl
  · next hrunning =>
      rw [if_neg hrunning] at hs
      exact hm hs

theorem polled_resumeRunning (h : ¬r.Pauses m.id) : r.Polled m.resumeRunning := by
  unfold Mutator.resumeRunning
  split
  · next hcount => exact polled_requestStop nofun (.inl hcount)
  · next hcount =>
      refine ⟨fun _ => ⟨rfl, ?_⟩, nofun⟩
      rintro (hpos | hpause)
      · exact hcount hpos
      · exact h hpause

theorem Turns.polled (h : r.Turns r' id op (some m) (some m')) (hm : r.get? id = some m)
    (hpolled : r.Polled m) : r'.Polled m' := by
  obtain rfl := (mem_of_get? hm).2
  cases h with
  | edits hp hedits =>
    cases hedits with
    | keeps => exact hpolled.congr rfl rfl (or_congr_right hp)
    | comesIn | blocks | stays => exact polled_of_isStopped rfl
    | passes hpark =>
      have hfree := free_of_holds .any hm hpark
      exact polled_withdrawRequest fun hstops =>
        hstops.elim (Nat.ne_of_gt · (hfree.2 rfl)) fun hheld => hfree.1 (hp.mp hheld)
    | leaves hfree | goesOn hfree =>
      exact polled_resumeRunning fun hheld => (free_of_holds _ hm hfree).1 (hp.mp hheld)
    | raises =>
      exact polled_requestStop (fun hs => (hpolled.requested hs).1)
        (.inl (Nat.lt_min.mpr ⟨Nat.succ_pos _, by decide⟩))
    | lowers hmany =>
      exact hpolled.congr rfl rfl ⟨fun _ => .inl (by omega),
        fun _ => .inl (Nat.sub_pos_of_lt hmany)⟩
    | leavesHeld _ hheld =>
      exact hpolled.congr rfl rfl ⟨fun _ => .inr hheld, fun _ => .inr (hp.mpr hheld)⟩
    | frees _ hfree =>
      exact polled_withdrawRequest fun hstops => hstops.elim (Nat.lt_irrefl 0) fun hheld =>
        hfree (hp.mp hheld)
  | asked _ hp => exact polled_requestStop (fun hs => (hpolled.requested hs).1) (.inr hp)
  | released _ hp =>
    split
    · next hzero => exact polled_withdrawRequest fun hstops => hstops.elim (Nat.ne_of_gt · hzero) hp
    · next hpos =>
        have hcount : 0 < m.suspendCount := Nat.pos_of_ne_zero hpos
        exact ⟨fun hs => absurd (.inl hcount) (hpolled.running hs).2,
          fun hs => ⟨(hpolled.requested hs).1, .inl hcount⟩⟩

end Polls

/-- Numbers are given out in order, and each to one thread. -/
structure Numbered (r : Registry) : Prop where
  distinct : r.ids.Nodup
  issued : ∀ id ∈ r.ids, id < r.nextId

theorem Section.numbered (h : r.Section thread op r' p) (hr : r.Numbered) : r'.Numbered := by
  rcases h.ids with ⟨_, -, hids, hnext, -⟩ | ⟨gone, -, hids, hnext, -⟩ | ⟨-, -, hids, hnext⟩
  · refine ⟨?_, fun id hid => ?_⟩
    · rw [hids]
      refine hr.distinct.append (List.nodup_singleton _) (List.disjoint_singleton.mpr fun hmem =>
        ?_)
      exact Nat.lt_irrefl _ (hr.issued _ hmem)
    · rw [hids, List.mem_append, List.mem_singleton] at hid
      rw [hnext]
      rcases hid with hid | rfl
      · exact Nat.lt_succ_of_lt (hr.issued id hid)
      · exact Nat.lt_succ_self _
  · refine ⟨?_, fun id hid => ?_⟩
    · rw [hids]
      exact hr.distinct.filter _
    · rw [hids] at hid
      rw [hnext]
      exact hr.issued id (List.mem_filter.mp hid).1
  · exact ⟨hids ▸ hr.distinct, by rw [hids, hnext]; exact hr.issued⟩

/-- What holds of a registry between two sections. -/
structure Sound (r : Registry) : Prop where
  distinct : r.ids.Nodup
  /-- Numbers are given out in order. -/
  issued : ∀ id ∈ r.ids, id < r.nextId
  /-- Whoever stopped the world has had a number. -/
  initiated : ∀ id, r.initiator = some id → id < r.nextId
  polled : ∀ m ∈ r.mutators, r.Polled m

theorem sound_empty : Registry.Sound { timeout := ms } :=
  ⟨List.nodup_nil, nofun, nofun, nofun⟩

namespace Sound

theorem update (h : r.Sound) (hid : ∀ m, (f m).id = m.id)
    (hf : ∀ m ∈ r.mutators, m.id = id → r.Polled m → r.Polled (f m)) : (r.update id f).Sound where
  distinct := by
    rw [ids_update hid]
    exact h.distinct
  issued := by
    rw [ids_update hid]
    exact h.issued
  initiated := h.initiated
  polled := fun m hm => (forall_mem_update h.polled hf m hm).congr rfl rfl Iff.rfl

/-- Every section keeps a registry sound, if the initiator of a pause has had a number. -/
theorem step (h : r.Sound) (hi : ∀ id, op = .stopWorld (some id) → id < r.nextId)
    (hsec : r.Section thread op r' p) : r'.Sound := by
  obtain ⟨hdistinct, hissued⟩ := hsec.numbered ⟨h.distinct, h.issued⟩
  refine ⟨hdistinct, hissued, fun id hid => ?_, fun m' hm' => ?_⟩
  · rcases hsec.flags with ⟨i, rfl, -, -, rfl, -⟩ | ⟨_, _, -, -, hnone, -⟩ | ⟨-, -, hnone, -⟩ |
      ⟨-, hsame, -⟩
    · exact Nat.lt_of_lt_of_le (hi id (by rw [hid])) hsec.nextId_le
    · cases hnone.symm.trans hid
    · cases hnone.symm.trans hid
    · exact Nat.lt_of_lt_of_le (h.initiated id (hsame ▸ hid)) hsec.nextId_le
  · have hturns := hsec.turns m'.id
    rw [get?_of_mem hdistinct hm'] at hturns
    cases hm : r.get? m'.id with
    | some m =>
      rw [hm] at hturns
      exact hturns.polled hm (h.polled m (mem_of_get? hm).1)
    | none =>
      rw [hm] at hturns
      generalize hid : m'.id = id at hturns
      cases hturns with
      | comes hnext hp =>
        have hfirst : r.initiator ≠ some id :=
          fun hi => (Nat.lt_irrefl _ (hnext ▸ h.initiated _ hi)).elim
        split
        · next hstopped => exact polled_requestStop nofun (.inr (hp.mpr ⟨hstopped, hfirst⟩))
        · next hfree =>
            refine ⟨fun _ => ⟨rfl, ?_⟩, nofun⟩
            rintro (hpos | hpause)
            · exact Nat.lt_irrefl 0 hpos
            · exact hfree (hp.mp hpause).1

end Sound

/-- The world stands still for an initiator: nobody else runs, and whoever has a number below the
bound is parked or inside a blocking region. -/
structure Still (r : Registry) (i : Option ThreadId) (bound : ThreadId) : Prop where
  stopped : r.worldStopped = true
  initiator : r.initiator = i
  quiet : ∀ m ∈ r.mutators, i ≠ some m.id → m.status ≠ .running ∧
    (m.id < bound → m.isStopped = true)

theorem still_of_allStopped (hstopped : r.worldStopped = true) (hall : r.allStopped = true) :
    r.Still r.initiator r.nextId := by
  refine ⟨hstopped, rfl, fun m hm hi => ?_⟩
  have hm' := List.all_eq_true.mp hall m hm
  have hisStopped : m.isStopped = true := by simpa [delays, hi] using hm'
  refine ⟨?_, fun _ => hisStopped⟩
  rcases Mutator.isStopped_iff.mp hisStopped with hs | hs <;> simp [hs]

namespace Still

variable {i : Option ThreadId} {bound : ThreadId}

theorem asleep (h : r.Still i bound) :
    Registry.Still { r with asleep := l, reached := n } i bound :=
  ⟨h.stopped, h.initiator, h.quiet⟩

/-- While the world stands still, no section but its release and the waiting of the initiator sets
it going. -/
theorem step (h : r.Still i bound) (hsound : r.Sound) (hbound : bound ≤ r.nextId)
    (hrelease : op ≠ .releaseWorld) (hawait : ∀ j, op ≠ .awaitStops j)
    (hsec : r.Section thread op r' p) : r'.Still i bound := by
  have hdistinct := (hsec.numbered ⟨hsound.distinct, hsound.issued⟩).distinct
  obtain ⟨hworld, hinitiator⟩ : r'.worldStopped = r.worldStopped ∧ r'.initiator = r.initiator := by
    rcases hsec.flags with ⟨_, -, hfree, -⟩ | ⟨j, _, hop, -⟩ | ⟨hop, -⟩ | ⟨hworld, hinitiator, -⟩
    · cases h.stopped.symm.trans hfree
    · exact (hawait j hop).elim
    · exact (hrelease hop).elim
    · exact ⟨hworld, hinitiator⟩
  refine ⟨hworld.trans h.stopped, hinitiator.trans h.initiator, fun m' hm' hi => ?_⟩
  have hturns := hsec.turns m'.id
  rw [get?_of_mem hdistinct hm'] at hturns
  have hp : r.Pauses m'.id := ⟨h.stopped, h.initiator ▸ hi⟩
  generalize hid : m'.id = id at hturns hp hi
  cases hm : r.get? id with
  | some m =>
    rw [hm] at hturns
    obtain ⟨hmem, hmid⟩ := mem_of_get? hm
    obtain ⟨hstatus, hstopped⟩ := h.quiet m hmem (hmid ▸ hi)
    cases hturns with
    | edits _ hedits =>
      obtain ⟨hstatus', hstopped'⟩ := hedits.quiet hm hp
      exact ⟨hstatus' hstatus, fun hlt => hstopped' (hstopped (hmid ▸ hlt))⟩
    | asked hfree => cases h.stopped.symm.trans hfree
    | released hop =>
      exact hop.elim (fun hop => (hrelease hop).elim) fun ⟨j, hop⟩ => (hawait j hop).elim
  | none =>
    rw [hm] at hturns
    cases hturns with
    | comes hnext =>
      rw [if_pos h.stopped]
      exact ⟨Mutator.status_requestStop_ne, fun hlt => absurd hlt (Nat.not_lt.mpr (hnext ▸ hbound))⟩

end Still

def others (r : Registry) (i : Option ThreadId) : List Mutator :=
  r.mutators.filter fun m => i != some m.id

/-- The number of threads that a pause holds is the number of the others, if its initiator is
attached. -/
theorem held_eq_length_others (hd : r.ids.Nodup) (hi : ∀ id, i = some id → id ∈ r.ids) :
    r.held i = (r.others i).length := by
  unfold held others
  cases i with
  | none =>
    have hall : r.mutators.filter (fun m => none != some m.id) = r.mutators :=
      List.filter_eq_self.mpr fun _ _ => rfl
    rw [hall]
    rfl
  | some id =>
    have hone : r.mutators.countP (fun m => m.id == id) = 1 := by
      rw [← List.count_eq_one_of_mem hd (hi id rfl), ids, List.count, List.countP_map]
      rfl
    have hsplit := List.length_eq_countP_add_countP (fun m => m.id == id) (l := r.mutators)
    have hrest : r.mutators.countP (fun m => some id != some m.id) =
        r.mutators.countP (fun m => decide ¬(m.id == id) = true) :=
      List.countP_congr fun m _ => by
        simp only [bne_iff_ne, ne_eq, Option.some.injEq, beq_iff_eq, decide_eq_true_eq]
        exact not_congr eq_comm
    rw [← List.countP_eq_length_filter, hrest, Option.isSome_some, if_pos rfl]
    omega

end Registry

/-- The record of a thread without what interrupts leave there. -/
def Mutator.masked (m : Mutator) : Mutator := { m with interrupted := false, blocker := none }

/-- A registry without what interrupts leave there. -/
def Registry.masked (r : Registry) : Registry :=
  { r with mutators := r.mutators.map Mutator.masked }

end ManagedHeap
