import ManagedHeap.Proofs.Releases

/-!
# Wakeups

**Input.**  A run, and a thread that is asleep in it until another thread is suspended.

**Algorithm.**  Whoever sleeps on a registry looks again when somebody wakes it.  Calls that let a
thread stand still or take it off the registry wake everybody.  A request for a suspension wakes
nobody; it leaves it to the thread that it suspends to do so when it comes in.

**Results.**  `World.wakesWaiters_after`: nobody sleeps until a thread is suspended that is not
attached, or is suspended already, unless somebody asked for that suspension when the thread was
standing still.
-/

namespace ManagedHeap

namespace Mutator

variable {m : Mutator}

theorem isSuspended_iff : m.isSuspended = true ↔ 0 < m.suspendCount ∧ m.isStopped = true := by
  simp [isSuspended]

end Mutator

namespace Registry

variable {r r' : Registry} {thread u : Nat} {id target : ThreadId} {m : Mutator} {op : Operation}
  {p : Progress}

/-- A call after which somebody else is still asleep takes nobody off the registry.  It lets nobody
be suspended who was not, unless it asks for the first suspension of a thread that stands still. -/
theorem Section.get?_of_asleep (h : r.Section thread op r' p)
    (hu : u ≠ thread) (hasleep : u ∈ r'.asleep) (hm : r.get? target = some m) :
    ∃ m', r'.get? target = some m' ∧ (m'.isSuspended = true → m.isSuspended = true ∨
      op = .requestSuspend target ∧ m.suspendCount = 0 ∧ m.isStopped = true) := by
  cases h with
  | comesIn | stays => simp [park, sleep, wakeAll, hu] at hasleep
  | blocks | goesOn | leavesHeld | frees | givesUp | releases | detaches =>
    simp [wakeAll] at hasleep
  | misses | finds | sleepsOn | looks | waits | arrives | waitsOn => exact ⟨m, hm, .inl⟩
  | passes =>
    refine ⟨_, get?_update (fun _ => rfl) hm, fun hs => .inl ?_⟩
    split at hs
    · simpa [Mutator.isSuspended_iff] using hs
    · exact hs
  | leaves =>
    refine ⟨_, get?_update (fun _ => Mutator.id_resumeRunning) hm, fun hs => .inl ?_⟩
    split at hs
    · simp [Mutator.isSuspended_iff] at hs
    · exact hs
  | raises hk =>
    refine ⟨_, get?_update (fun _ => Mutator.id_requestStop) hm, fun hs => ?_⟩
    split at hs
    · next htarget =>
        subst htarget
        have hstopped : m.isStopped = true := by
          rw [Mutator.isSuspended_iff, Mutator.isStopped_requestStop] at hs
          exact hs.2
        rcases Nat.eq_zero_or_pos m.suspendCount with hzero | hpos
        · exact .inr ⟨rfl, hzero, hstopped⟩
        · exact .inl (Mutator.isSuspended_iff.mpr ⟨hpos, hstopped⟩)
    · exact .inl hs
  | lowers hk hlow =>
    refine ⟨_, get?_update (fun _ => rfl) hm, fun hs => .inl ?_⟩
    split at hs
    · next htarget =>
        subst htarget
        cases hm.symm.trans hk
        exact Mutator.isSuspended_iff.mpr ⟨by omega, (Mutator.isSuspended_iff.mp hs).2⟩
    · exact hs
  | stops | asks =>
    refine ⟨_, get?_claim hm, fun hs => .inl ?_⟩
    split at hs
    · exact hs
    · simpa [Mutator.isSuspended_iff] using hs
  | attaches =>
    exact ⟨m, by simp [get?, List.find?_append, show r.mutators.find? _ = some m from hm], .inl⟩

end Registry

namespace World

variable {w w₁ w₂ w' : World} {t u e e' : Nat} {target : ThreadId} {tasks : List Task}

section Waiting

variable {x : Runtime} {op : Operation} {r : Registry} {p : Progress}

/-- Whether a thread is asleep until another one is suspended. -/
def Sleeps (w : World) (t e : Nat) (target : ThreadId) : Prop :=
  t ∈ w.asleep e ∧ ∃ ms, w.callOf t = some (e, .awaitSuspension target ms)

/-- Whether a thread was suspended and stands still. -/
def Suspended (w : World) (e : Nat) (target : ThreadId) : Prop :=
  ∃ m, w.record e target = some m ∧ m.isSuspended = true

/-- Whether the next step of a thread asks for the suspension of another one that stands still
already, while somebody is asleep until it is suspended. -/
structure PassesOver (w : World) (u t e : Nat) (target : ThreadId) : Prop where
  sleeps : w.Sleeps t e target
  request : w.callOf u = some (e, .requestSuspend target)
  stopped : ∃ m, w.record e target = some m ∧ m.suspendCount = 0 ∧ m.isStopped = true

/-- **What a move does to somebody who sleeps until a thread is suspended:** it has just looked, or
it slept before and the thread was not suspended by anything but a request. -/
theorem sleeps_move {m : Move} (hd : w.crew.Detained) (hs : (w.move m).Sleeps t e target) :
    (∃ k, (w.move m).crew.record e target = some k ∧ k.isSuspended = false) ∨ w.Sleeps t e target ∧
    ∀ k, w.crew.record e target = some k → ∃ k', (w.move m).crew.record e target = some k' ∧
    (k'.isSuspended = true → k.isSuspended = true ∨ ∃ u, m = .step u ∧
      w.callOf u = some (e, .requestSuspend target) ∧ k.suspendCount = 0 ∧ k.isStopped = true) := by
  obtain ⟨hasleep, ms, hcall⟩ := hs
  obtain ⟨r', hr', hu⟩ : ∃ r', (w.move m).crew.registries[e]? = some r' ∧ t ∈ r'.asleep := by
    rw [asleep_crew] at hasleep
    cases hr' : (w.move m).crew.registries[e]? with
    | none => simp [hr'] at hasleep
    | some r' => exact ⟨r', rfl, by simpa [hr'] using hasleep⟩
  rw [Crew.record, hr', Option.bind_some]
  cases hd.sleeper (turn_move m) hr' hu with
  | falls _ _ _ _ hlulls hy hnext =>
    cases (callOf_of_actor hy hnext).symm.trans hcall
    obtain ⟨_, hp, -, hlook⟩ := hlulls.own hu
    cases hp
    exact .inl (hlook target ms rfl)
  | sleepsOn hr hu' hy hy' htasks _ hchange =>
    cases (callOf_of_actor hy' htasks).symm.trans hcall
    refine .inr ⟨⟨by rw [asleep_crew, hr]; exact hu', ms, callOf_of_actor hy htasks⟩,
      fun k hk => ?_⟩
    rw [Crew.record, hr, Option.bind_some] at hk
    rcases hchange with hmasked | ⟨u, x, op, rest, expired, p, hm, hne, hx, hcalls, hstep⟩
    · have hget : (r'.get? target).map Mutator.masked = some k.masked := by
        rw [← Registry.get?_masked, hmasked, Registry.get?_masked, hk]
        rfl
      obtain ⟨k', hk', hsame⟩ := Option.map_eq_some_iff.mp hget
      have hsuspended : k'.masked.isSuspended = k.masked.isSuspended :=
        congrArg Mutator.isSuspended hsame
      exact ⟨k', hk', fun h => .inl (hsuspended.symm.trans h)⟩
    · obtain ⟨k', hk', hwhy⟩ := (Registry.section_of_step hstep).get?_of_asleep hne hu hk
      refine ⟨k', hk', fun hsuspended => (hwhy hsuspended).imp_right ?_⟩
      rintro ⟨rfl, hzero, hstopped⟩
      exact ⟨u, hm, callOf_of_actor hx hcalls, hzero, hstopped⟩

theorem suspended_iff : w.Suspended e target ↔
    ∃ m, w.crew.record e target = some m ∧ m.isSuspended = true := by
  unfold Suspended
  rw [record_eq]
  constructor
  · rintro ⟨_, hmasked, hs⟩
    obtain ⟨m, hm, rfl⟩ := Option.map_eq_some_iff.mp hmasked
    exact ⟨m, hm, hs⟩
  · rintro ⟨m, hm, hs⟩
    exact ⟨m.masked, by rw [hm]; rfl, hs⟩

/-- Nobody sleeps through the suspension of the thread that it waits for, unless somebody passed
over it since it fell asleep. -/
theorem exists_passesOver (s : EngineSpec) (label : String) (moves : List Move)
    (hs : ((start s label).after moves).Sleeps t e target) :
    (∃ k, ((start s label).after moves).crew.record e target = some k) ∧
    (((start s label).after moves).Suspended e target → ∃ before u later,
      moves = before ++ .step u :: later ∧ ((start s label).after before).PassesOver u t e target ∧
      ∀ k, ((start s label).after (before ++ .step u :: later.take k)).Sleeps t e target) := by
  induction moves using List.reverseRecOn with
  | nil =>
    have hasleep : t ∈ (start s label).asleep e := hs.1
    rw [asleep_crew] at hasleep
    cases hr : (start s label).crew.registries[e]? with
    | none => simp [hr] at hasleep
    | some r => simp [hr, ((isFresh_start s label).registries hr).2] at hasleep
  | append_singleton moves m ih =>
    have hmove : (start s label).after (moves ++ [m]) = ((start s label).after moves).move m :=
      after_append moves [m]
    rw [suspended_iff, hmove]
    rcases sleeps_move (detained_after s label moves) (hmove ▸ hs) with ⟨k, hk, hno⟩ |
      ⟨hbefore, hkeeps⟩
    · refine ⟨⟨k, hk⟩, ?_⟩
      rintro ⟨k', hk', hsuspended⟩
      cases hk.symm.trans hk'
      cases hno.symm.trans hsuspended
    · obtain ⟨⟨k, hk⟩, hpassed⟩ := ih hbefore
      obtain ⟨k', hk', hwhy⟩ := hkeeps k hk
      refine ⟨⟨k', hk'⟩, ?_⟩
      rintro ⟨_, hsame, hsuspended⟩
      cases hk'.symm.trans hsame
      rcases hwhy hsuspended with hold | ⟨u, rfl, hrequest, hzero, hstopped⟩
      · obtain ⟨before, u, later, rfl, hpasses, hsince⟩ := hpassed (suspended_iff.mpr ⟨k, hk, hold⟩)
        refine ⟨before, u, later ++ [m], by simp, hpasses, fun n => ?_⟩
        rcases Nat.lt_or_ge later.length n with hn | hn
        · rw [List.take_of_length_le (by simpa using hn)]
          simpa using hs
        · rw [List.take_append_of_le_length hn]
          exact hsince n
      · refine ⟨moves, u, [], rfl, ⟨hbefore, hrequest, k.masked, ?_, hzero, hstopped⟩,
          fun n => by simpa using hs⟩
        rw [record_eq, hk]
        rfl

/-- A request that passes over somebody leaves it asleep, although the thread that it waits for is
suspended now. -/
theorem PassesOver.sleeps_move (h : w.PassesOver u t e target) (hd : w.crew.Detained) :
    (w.move (.step u)).Sleeps t e target ∧ (w.move (.step u)).Suspended e target := by
  obtain ⟨⟨hasleep, ms, hms⟩, hrequest, m, hm, hzero, hstopped⟩ := h
  rw [record_eq] at hm
  obtain ⟨k, hk, rfl⟩ := Option.map_eq_some_iff.mp hm
  obtain ⟨r, hr, hget⟩ := Option.bind_eq_some_iff.mp hk
  obtain ⟨x, rest, expired, r', p, hx, -, hstep, hcrew⟩ := exists_call hd hrequest hr id
  have hut : t ≠ u := by
    rintro rfl
    cases hms.symm.trans hrequest
  have hr' : (w.move (.step u)).crew.registries[e]? = some r' := by
    rw [hcrew]
    exact Crew.getElem?_modifyRegistry_self hr
  simp only [Registry.step, hget] at hstep
  cases hstep
  rw [asleep_crew, hr] at hasleep
  have hid : ∀ j : Mutator, ({ j with suspendCount := min (k.suspendCount + 1) suspendCountMax } :
      Mutator).requestStop.id = j.id := fun _ => Mutator.id_requestStop
  have hk' : (w.move (.step u)).crew.record e target =
      some { k with suspendCount := min (k.suspendCount + 1) suspendCountMax }.requestStop := by
    rw [Crew.record, hr', Option.bind_some, Registry.get?_update hid hget, if_pos rfl]
  refine ⟨⟨by rw [asleep_crew, hr']; exact hasleep, ms, ?_⟩,
    suspended_iff.mpr ⟨_, hk', Mutator.isSuspended_iff.mpr ?_⟩⟩
  · obtain ⟨y, more, hy, hmore⟩ := exists_tasks_of_callOf hms
    refine callOf_of_actor (x := y.actor) ?_ hmore
    rw [hcrew]
    exact (Crew.getElem?_modify_of_ne hut).trans
      ((Crew.getElem?_modify_of_ne hut).trans (actor_of_thread hy))
  · rw [Mutator.suspendCount_requestStop, Mutator.isStopped_requestStop]
    exact ⟨Nat.lt_min.mpr ⟨Nat.succ_pos _, by decide⟩, hstopped⟩

/-- Nobody sleeps until a thread is suspended that is not attached or is suspended already, unless
it was passed over. -/
structure WakesWaiters (w : World) (moves : List Move) : Prop where
  attached : ∀ t e target, (w.after moves).Sleeps t e target →
    ∃ m, (w.after moves).record e target = some m
  /-- Whoever sleeps although the thread is suspended was asleep when somebody asked for that, with
  the thread standing still, and nobody has woken it since. -/
  suspended : ∀ t e target, (w.after moves).Sleeps t e target → (w.after moves).Suspended e target →
    ∃ before u later, moves = before ++ .step u :: later ∧
    (w.after before).PassesOver u t e target ∧
    ∀ k, (w.after (before ++ .step u :: later.take k)).Sleeps t e target
  /-- Such a request wakes nobody. -/
  passed : ∀ u t e target, (w.after moves).PassesOver u t e target →
    (w.after (moves ++ [.step u])).Sleeps t e target ∧
    (w.after (moves ++ [.step u])).Suspended e target

/-- **Whoever waits for the suspension of a thread is woken by everything that may bring it about
but a request.**  In no run is anybody asleep until a thread is suspended that is not attached.  If
somebody is asleep until a thread is suspended that is suspended already, then the request came
while it was asleep and while the thread stood still; every request of that kind has this effect. -/
theorem wakesWaiters_after (s : EngineSpec) (label : String) (moves : List Move) :
    (start s label).WakesWaiters moves := by
  refine ⟨fun t e target hs => ?_, fun t e target hs => (exists_passesOver s label moves hs).2,
    fun u t e target h => ?_⟩
  · obtain ⟨⟨k, hk⟩, -⟩ := exists_passesOver s label moves hs
    exact ⟨k.masked, by rw [record_eq, hk]; rfl⟩
  · rw [after_append]
    exact h.sleeps_move (detained_after s label moves)

/-- A thread enters a blocking region, another one waits for its suspension, and a third one asks
for that. -/
def requestMoves : List Move :=
  [.call "worker", .call "waiter", .call "main"] ++
    given 0 0 (.attach "gc" "worker") 8 ++ given 0 1 .enterBlocking 8 ++
    given 1 2 (.awaitSuspension "gc" 1 100000) 8 ++ given 2 3 (.requestSuspend "gc" 1 1) 8

/-- Nobody can move any more, and the second thread is asleep until the first one is suspended,
which it is. -/
theorem sleeps_through_request : ((start standardEngine "gc").after requestMoves).asleep 0 = [1] ∧
    ((start standardEngine "gc").after requestMoves).callOf 1 =
      some (0, .awaitSuspension 1 100000) ∧
    ((start standardEngine "gc").after requestMoves).record 0 1 =
      some { id := 1, name := "worker", status := .blocked, suspendCount := 1 } ∧
    ∀ t < 3, ((start standardEngine "gc").after requestMoves).canMove t = false := by
  refine ⟨?_, ?_, ?_, ?_⟩ <;> decide +kernel

end Waiting

end World

end ManagedHeap
