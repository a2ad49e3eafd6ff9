import ManagedHeap.Proofs.Fates

/-!
# Stopping the finalizer thread

**Input.**  A run in which a thread is about to ask the finalizer thread of an engine to leave, and
everything that happens afterwards.  The engine does not run finalizers on exit.

**Algorithm.**  The call to stop travels behind the batches that were sent before it.  A thread that
never started cannot hear it; then the caller drains the channel itself.

**Results.**  `World.stopsFinalizer_after`: which jobs still begin, which are dropped, and what it
means to be dropped.
-/

namespace ManagedHeap

namespace World

variable {w : World} {t e : Nat} {x : Runtime}

/-- The jobs of an engine that will still be run, as things are. -/
def ahead (w : World) (e : Nat) : Multiset (Job Finalizer) := (w.docket e).ahead

/-- The jobs of an engine that will still be dropped, as things are. -/
def doomed (w : World) (e : Nat) : Multiset (Job Finalizer) := (w.docket e).doomed false

/-- These, the jobs of collections on their way to the channel, and what was sent when nobody looks
any more. -/
def overdue (w : World) (e : Nat) : Multiset (Job Finalizer) := (w.docket e).doomed true

/-- Whether the receiving end of the channel has been emptied for the last time and not yet
closed. -/
def IsClosing (w : World) (e : Nat) : Prop := .close ∈ (w.docket e).errands

/-- The jobs of an engine that wait for its finalizer thread: the rest of its batch and what is on
its channel. -/
def queued (w : World) (e : Nat) : Multiset (Job Finalizer) := (w.docket e).queued

/-- How many jobs of an engine were dropped and are still to be counted. -/
def uncounted (w : World) (e : Nat) : Nat := Docket.uncounted (w.docket e).errands

theorem sound_after (s : EngineSpec) (label : String) (moves : List Move) :
    (((start s label).after moves).docket e).Sound :=
  (course_after s label moves).sound Docket.sound_empty

section Calls

variable {m : Move}

theorem exists_thread_of_nextTask {task : Task} (h : w.nextTask t = some task) :
    ∃ x rest, w.threads[t]? = some x ∧ x.tasks = task :: rest := by
  obtain ⟨x, hx, hhead⟩ := Option.bind_eq_some_iff.mp h
  obtain ⟨rest, hrest⟩ := List.head?_eq_some_iff.mp hhead
  exact ⟨x, rest, hx, hrest⟩

theorem docket_of_claimReceiver (h : w.nextTask t = some (.claimReceiver e)) :
    (w.move (.step t)).docket e = (w.docket e).stop ∧ w.happenings e (.step t) = [] := by
  obtain ⟨x, rest, hx, htasks⟩ := exists_thread_of_nextTask h
  have hs : w.stackOf t = some ⟨.claimReceiver e :: rest, x.reply⟩ := by
    simp [stackOf, hx, Thread.stack, htasks]
  refine ⟨?_, by simp [happenings, h, happeningsOf]⟩
  rw [← docket_floor, ← docket_floor]
  have hmove := rearranges_move w (.step t)
  generalize (w.move (.step t)).floor = f at hmove ⊢
  cases hmove with
  | rests hrests =>
    have hnone := hrests t rfl
    simp [step, hx, htasks, runTask] at hnone
  | performs _ hs' => cases hs.symm.trans hs'
  | @steps _ task _ tasks r a c _ hs' hproduces =>
    cases hs.symm.trans hs'
    obtain ⟨d, hpost, hbefore, hafter⟩ := Floor.exists_docket ((threads_floor t).trans hs)
    rw [boards_floor, Option.map_map] at hpost
    have hadd : d.add (Task.errand? e (.claimReceiver e)).toList = d := Docket.add_nil d
    rw [Floor.docket_alter, hafter, Floor.boards_alter, Floor.boards_put, boards_floor, hbefore,
      hadd, Option.map_map, Option.map_map]
    exact turns_claimReceiver hproduces d hpost

theorem exists_step_of_mem_happenings {a : Happening} (h : a ∈ w.happenings e m) :
    ∃ u task rest after, m = .step u ∧ w.nextTask u = some task ∧ a ∈ w.happeningsOf u e task ∧
      (w.modifyThread u fun x => { x with tasks := rest }).runTask u task = some after ∧
        w.move m = after.modifyThread u fun x => { x with expired := false } := by
  cases m with
  | step u =>
    cases hstep : w.step u with
    | none => simp [happenings, hstep] at h
    | some w' =>
      obtain ⟨x, task, rest, after, hx, htasks, hrun, rfl⟩ := exists_task_of_step hstep
      have hnext : w.nextTask u = some task := by simp [nextTask, hx, htasks]
      refine ⟨u, task, rest, after, rfl, hnext, ?_, hrun, by rw [move, hstep, Option.getD_some]⟩
      simpa [happenings, hstep, hnext] using h
  | _ => cases h

/-- **A job that is dropped is not run:** its object has finished with it, and what it holds is
given back next. -/
theorem clears_of_discarded {j : Job Finalizer} (h : .discarded j ∈ w.happenings e m) :
    ∃ u, m = .step u ∧ (w.move m).nextTask u = some (.dropJobs [j]) ∧
    ∀ y, (w.move m).engines[j.object.heap]? = some y →
    y.heap.isFinalizerPending j.object.object = false := by
  obtain ⟨u, task, rest, after, rfl, hnext, hmem, hrun, hmove⟩ := exists_step_of_mem_happenings h
  obtain ⟨jobs, n, rfl⟩ : ∃ jobs n, task = .discardJobs e (j :: jobs) n := by
    unfold happeningsOf at hmem
    grind
  obtain ⟨x, _, hx, -⟩ := exists_thread_of_nextTask hnext
  cases hrun
  rw [hmove]
  refine ⟨u, rfl, ?_, fun y hy => ?_⟩
  · simp [nextTask, discardJobs, modifyThread, modifyHeap, modifyEngine, push,
      Array.getElem?_modify, hx]
  · simp only [discardJobs, modifyThread, modifyHeap, modifyEngine, push, Array.getElem?_modify,
      if_true] at hy
    obtain ⟨z, -, rfl⟩ := Option.map_eq_some_iff.mp hy
    unfold Heap.isFinalizerPending Heap.finishFinalization
    simp only [Space.get?_update, if_true]
    cases z.heap.space.get? j.object.object <;> rfl

/-- **Dropped jobs are counted** in the statistics of their engine, modulo `2 ^ 64`. -/
theorem counts_of_counted {n : Nat}
    (h : .counted n ∈ w.happenings e m) (hx : w.engines[e]? = some x) :
    ∃ y, (w.move m).engines[e]? = some y ∧ y.statistics.finalizersDiscarded =
      (x.statistics.finalizersDiscarded + n) % Numeral.wordLimit := by
  obtain ⟨u, task, rest, after, rfl, hnext, hmem, hrun, hmove⟩ := exists_step_of_mem_happenings h
  obtain rfl : task = .discardJobs e [] n := by
    unfold happeningsOf at hmem
    grind
  cases hrun
  rw [hmove]
  refine ⟨{ x with statistics := x.statistics.recordDiscarded n }, ?_, rfl⟩
  simp [discardJobs, modifyThread, modifyStatistics, modifyEngine, push, Array.getElem?_modify, hx]

end Calls

section Stops

/-- The engine whose finalizer thread a thread is about to ask to leave. -/
def stopCall (w : World) (t : Nat) : Option Nat :=
  match w.nextTask t with
  | some (.claimReceiver e) => some e
  | _ => none

theorem nextTask_of_stopCall (h : w.stopCall t = some e) :
    w.nextTask t = some (.claimReceiver e) := by
  unfold stopCall at h
  split at h <;> cases h
  next hnext => exact hnext

/-- What becomes of the jobs of an engine whose finalizer thread is asked to leave in the next step
of a thread. -/
structure StopsFinalizer (w : World) (t e : Nat) (x : Runtime) : Prop where
  /-- Whatever happens from there on, what begins was ahead of the call. -/
  runs : ∀ more, begunIn (w.course e (.step t :: more)) + (w.after (.step t :: more)).ahead e =
      w.ahead e
  /-- Nothing is ahead of it if the thread never started; then all that waits is going to be
  dropped. -/
  unstarted : x.finalization.receiver = .unclaimed →
    w.ahead e = 0 ∧ w.queued e ≤ (w.move (.step t)).doomed e
  /-- All that waits is ahead of it if the thread is at work. -/
  started : x.finalization.joinable = true → w.ahead e = w.queued e
  /-- From any time on, what is going to be dropped stays so until it is dropped. -/
  drops : ∀ more later, (w.after (.step t :: more)).doomed e ≤
      droppedIn ((w.after (.step t :: more)).course e later) +
      (w.after (.step t :: (more ++ later))).doomed e
  /-- What collections hand over meanwhile is going to be dropped as well, or goes away with the
  channel … -/
  loses : ∀ more later, (w.after (.step t :: more)).overdue e ≤
      droppedIn ((w.after (.step t :: more)).course e later) + lostIn
    ((w.after (.step t :: more)).course e later) + (w.after (.step t :: (more ++ later))).overdue e
  /-- … and that only if it was sent after the last look at the channel: all that was sent before is
  going to be run or dropped. -/
  looks : ∀ more y, (w.after (.step t :: more)).engines[e]? = some y →
    y.finalization.receiver ≠ .closed → ¬(w.after (.step t :: more)).IsClosing e →
    ↑(y.finalization.channel.flatMap jobsOf) ≤
      (w.after (.step t :: more)).ahead e + (w.after (.step t :: more)).doomed e
  /-- Each dropped job is counted once. -/
  counts : ∀ more, (droppedIn (w.course e (.step t :: more))).card + w.uncounted e =
    countedIn (w.course e (.step t :: more)) + (w.after (.step t :: more)).uncounted e
  /-- The object of a dropped job has finished with its finalizer, whose roots are given back
  next. -/
  clears : ∀ more m j, .discarded j ∈ (w.after more).happenings e m →
    ∃ u, m = .step u ∧ ((w.after more).move m).nextTask u = some (.dropJobs [j]) ∧
    ∀ y, ((w.after more).move m).engines[j.object.heap]? = some y →
    y.heap.isFinalizerPending j.object.object = false
  /-- The statistics count modulo `2 ^ 64`. -/
  records : ∀ more m n y, .counted n ∈ (w.after more).happenings e m →
    (w.after more).engines[e]? = some y → ∃ z, ((w.after more).move m).engines[e]? = some z ∧
    z.statistics.finalizersDiscarded = (y.statistics.finalizersDiscarded + n) % Numeral.wordLimit

/-- What a thread at work begins later was waiting for it when it was told to leave. -/
theorem StopsFinalizer.exists_queued (h : w.StopsFinalizer t e x)
    (hjoinable : x.finalization.joinable = true) {more : List Move} {j : Job Finalizer}
    (hj : .begun j ∈ w.course e (.step t :: more)) : ∃ rest, w.queued e = j ::ₘ rest := by
  have hbegun : j ∈ begunIn (w.course e (.step t :: more)) :=
    Multiset.mem_coe.mpr (List.mem_filterMap.mpr ⟨.begun j, hj, rfl⟩)
  apply Multiset.exists_cons_of_mem
  rw [← h.started hjoinable, ← h.runs more]
  exact Multiset.mem_add.mpr (.inl hbegun)

/-- **A finalizer thread that is told to leave runs what was sent to it before and nothing else.**
Of an engine that does not run finalizers on exit, a thread that never started runs nothing, and
what waits for it is dropped; a thread at work still runs all that waits.  What is handed over later
is dropped, cleared and counted, but for what is sent between the last look at the channel and its
end. -/
theorem stopsFinalizer_after (s : EngineSpec) (label : String) (moves : List Move) {x : Runtime}
    (hx : ((start s label).after moves).engines[e]? = some x)
    (hoff : x.settings.runFinalizersOnExit = false)
    (hcall : ((start s label).after moves).stopCall t = some e) :
    ((start s label).after moves).StopsFinalizer t e x := by
  have hsound := sound_after (e := e) s label moves
  have hreg := regular_after s label moves
  have hregLater := fun more => regular_after s label (moves ++ .step t :: more)
  simp only [after_append] at hregLater
  generalize (start s label).after moves = w at hx hcall hsound hreg hregLater
  obtain ⟨hstop, hquiet⟩ := docket_of_claimReceiver (nextTask_of_stopCall hcall)
  have hpost : (w.docket e).post = some x.post := by simp [docket, hx]
  have htold := hsound.told_stop hpost hoff
  have hcourse : ∀ more, ((w.docket e).stop).Course (w.course e (.step t :: more))
      ((w.after (.step t :: more)).docket e) := by
    intro more
    have hmore := course_moves (e := e) (hregLater []) more
    rw [show w.after [.step t] = w.move (.step t) from rfl, hstop] at hmore
    rw [course, hquiet, List.nil_append]
    exact hmore
  have htoldLater := fun more => ((hcourse more).ahead_eq htold).2
  have hlater : ∀ more later,
      ((w.after (.step t :: more)).docket e).Course ((w.after (.step t :: more)).course e later)
      ((w.after (.step t :: (more ++ later))).docket e) := by
    intro more later
    rw [← List.cons_append, after_append]
    exact course_moves (hregLater more) later
  constructor
  case runs =>
    intro more
    exact ((hcourse more).ahead_eq htold).1.trans hsound.ahead_stop
  case unstarted =>
    intro hunclaimed
    unfold ahead queued doomed
    rw [hstop]
    exact hsound.queued_le_doomed hpost hunclaimed
  case started =>
    intro hjoinable
    exact hsound.ahead_eq_queued (by rw [Docket.joinable, hpost]; exact hjoinable)
  case drops =>
    intro more later
    have hdrops := (hlater more later).doomed_le (b := false) (htoldLater more)
    rwa [if_neg Bool.false_ne_true, add_zero] at hdrops
  case loses => exact fun more later => (hlater more later).doomed_le (b := true) (htoldLater more)
  case looks =>
    intro more y hy hreceiver hopen
    have hpost : ((w.after (.step t :: more)).docket e).post = some y.post := by
      rw [docket, hy]; rfl
    exact (htoldLater more).channel_le hpost hreceiver hopen
  case counts =>
    intro more
    exact (course_moves hreg (.step t :: more)).counts_eq hsound
  case clears => exact fun more m j h => clears_of_discarded h
  case records => exact fun more m n y h hy => counts_of_counted h hy

/-- One finalizer waits at a gate and another one behind it, in one batch, when the engine is
stopped. -/
def heldMoves : List Move :=
  .call "main" ::
    (ordered 0 (.allocate "gc"
        { size := 16, finalizer := some ⟨"first", [.gate "gate"], []⟩ } none) 8 ++
      ordered 1 (.allocate "gc" { size := 16, finalizer := some ⟨"second", [], []⟩ } none) 8 ++
      ordered 2 (.collect "gc" (some .explicit)) 40 ++ List.replicate 3 (.step 0) ++
      ordered 3 (.stop "gc") 3)

/-- Another thread opens the gate, and the finalizer thread goes on. -/
def gateMoves : List Move :=
  .call "other" :: .instruct 2 4 false (.openGate "gate") ::
    List.replicate 3 (.step 2) ++ List.replicate 20 (.step 0)

/-- The job that waits behind the one that has begun. -/
def secondJob : Job Finalizer := ⟨⟨0, ⟨1, 1⟩⟩, ⟨"second", [], []⟩⟩

theorem stopsFinalizer_held :
    ∃ x, ((start startedEngine "gc").after heldMoves).engines[0]? = some x ∧
    x.settings.runFinalizersOnExit = false ∧
    ((start startedEngine "gc").after heldMoves).stopCall 1 = some 0 ∧
    (∃ rest, ((start startedEngine "gc").after heldMoves).queued 0 = secondJob ::ₘ rest) ∧
    .begun secondJob ∈
      ((start startedEngine "gc").after heldMoves).course 0 (.step 1 :: gateMoves) := by
  have hvalues : (((start startedEngine "gc").after heldMoves).engines[0]?).map (fun x =>
        (x.settings.runFinalizersOnExit, x.finalization.joinable)) = some (false, true) := by
    decide +kernel
  have hcall : ((start startedEngine "gc").after heldMoves).stopCall 1 = some 0 := by decide +kernel
  have hbegun : .begun secondJob ∈
      ((start startedEngine "gc").after heldMoves).course 0 (.step 1 :: gateMoves) := by
    decide +kernel
  obtain ⟨x, hx, hvalues⟩ := Option.map_eq_some_iff.mp hvalues
  obtain ⟨hoff, hjoinable⟩ := Prod.ext_iff.mp hvalues
  have hstops := stopsFinalizer_after startedEngine "gc" heldMoves hx hoff hcall
  exact ⟨x, hx, hoff, hcall, hstops.exists_queued hjoinable hbegun, hbegun⟩

/-- A job that had not begun when the finalizer thread was told to leave, by an engine that does not
run finalizers on exit, begins all the same. -/
theorem begins_after_stop : (((start startedEngine "gc").after heldMoves).engines[0]?).map
    (·.settings.runFinalizersOnExit) = some false ∧
    ((start startedEngine "gc").after heldMoves).stopCall 1 = some 0 ∧
    (start startedEngine "gc").course 0 heldMoves =
      [.paused 0, .finished 0, .begun ⟨⟨0, ⟨0, 1⟩⟩, ⟨"first", [.gate "gate"], []⟩⟩] ∧
    ((start startedEngine "gc").after heldMoves).course 0 (.step 1 :: gateMoves) =
      [.begun secondJob] := by
  refine ⟨?_, ?_, ?_, ?_⟩ <;> decide +kernel

end Stops

end World

end ManagedHeap
