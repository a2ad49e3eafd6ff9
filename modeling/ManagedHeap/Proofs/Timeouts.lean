import ManagedHeap.Proofs.Attempts

/-!
# Collections that come too late

**Input.**  A run in which a thread begins a collection that cannot stop the world in time.

**Algorithm.**  Whoever gives up lets the world go in the section in which its time runs out:
requests are taken back from all threads that nobody has suspended, and everybody is woken.  Then
the phase is set back and the lock is given back.

**Results.**  `World.leavesNoTrace_after`: what a collection that fails leaves behind, whatever
threads do meanwhile.
-/

namespace ManagedHeap

namespace Registry

section Heeding

variable {r r' : Registry} {thread : Nat} {id : ThreadId} {op : Operation} {p : Progress}

/-- Whether no record of a suspended thread says that it runs. -/
def Heeds (r : Registry) : Prop :=
  ∀ id m, r.get? id = some m → 0 < m.suspendCount → m.status ≠ .running

/-- **No call lets a suspended thread run.** -/
theorem Turns.heeds {m' : Mutator} (h : r.Turns r' id op (r.get? id) (some m'))
    (hr : ∀ m, r.get? id = some m → 0 < m.suspendCount → m.status ≠ .running)
    (hpos : 0 < m'.suspendCount) : m'.status ≠ .running := by
  generalize hm : r.get? id = o at h hr
  cases h with
  | edits _ hedits =>
    cases hedits with
    | keeps => exact hr _ rfl hpos
    | comesIn | blocks | stays => exact nofun
    | passes hfree => exact (Nat.ne_of_gt hpos ((free_of_holds .any hm hfree).2 rfl)).elim
    | leaves | goesOn =>
      rw [Mutator.suspendCount_resumeRunning] at hpos
      rw [Mutator.resumeRunning, if_pos hpos]
      exact Mutator.status_requestStop_ne
    | raises => exact Mutator.status_requestStop_ne
    | lowers hmany =>
      have hkeeps := hr _ rfl (Nat.lt_trans Nat.zero_lt_one hmany)
      exact hkeeps
    | leavesHeld | frees => exact (Nat.lt_irrefl 0 hpos).elim
  | asked => exact Mutator.status_requestStop_ne
  | released =>
    split at hpos
    · next hzero => exact (Nat.ne_of_gt hpos hzero).elim
    · next hcount =>
        rw [if_neg hcount]
        exact hr _ rfl hpos
  | comes =>
    have hcount : ∀ {k : Mutator}, k.suspendCount = 0 → 0 < k.suspendCount → False :=
      fun hz hk => Nat.ne_of_gt hk hz
    split at hpos
    · exact (hcount Mutator.suspendCount_requestStop hpos).elim
    · exact (hcount rfl hpos).elim

end Heeding

section Release

variable {r r' : Registry}

/-- What a pause that comes too late makes of a registry. -/
structure TakesBack (r r' : Registry) : Prop where
  flag : r'.worldStopped = false
  initiator : r'.initiator = none
  counts : r'.counts = r.counts
  awake : r'.asleep = []
  /-- Whoever only the pause had asked to stop runs again. -/
  asked : ∀ id m, r.get? id = some m → m.suspendCount = 0 → m.status = .safepointRequested →
    ∃ m', r'.get? id = some m' ∧ m'.status = .running
  /-- Whoever is not suspended runs, is inside a region, or is parked and held by nothing. -/
  free : ∀ id m, r'.get? id = some m → m.suspendCount = 0 →
    (m.status = .running ∨ m.status = .blocked ∨ m.status = .suspended) ∧ m.pollRequested = false ∧
      r'.mustPark id = false
  /-- Whoever is suspended is still asked to stop, inside a region, or parked. -/
  suspended : ∀ id m, r'.get? id = some m → 0 < m.suspendCount →
    m.status = .safepointRequested ∨ m.status = .blocked ∨ m.status = .suspended

theorem get?_release (id : ThreadId) : r.release.get? id = (r.get? id).map fun m =>
    if m.suspendCount = 0 then m.withdrawRequest else m :=
  get?_of_map (fun m => by split <;> rfl) rfl

theorem Heeds.takesBack (h : r.Heeds) : r.TakesBack r.release.wakeAll where
  flag := rfl
  initiator := rfl
  awake := rfl
  counts := by
    refine counts_of_map (fun m => ?_) rfl
    split <;> exact ⟨rfl, rfl⟩
  asked id m hm hzero hstatus := by
    refine ⟨m.withdrawRequest, (get?_release id).trans ?_, if_pos hstatus⟩
    rw [hm, Option.map_some, if_pos hzero]
  free id m hm hzero := by
    have hpark : r.release.wakeAll.mustPark id = false := by
      rw [mustPark, hm]
      simp [hzero, wakeAll, Registry.release]
    obtain ⟨k, hk, rfl⟩ := Option.map_eq_some_iff.mp ((get?_release id).symm.trans hm)
    have hcount : k.suspendCount = 0 := by
      split at hzero
      · next hcount => exact hcount
      · exact hzero
    rw [if_pos hcount]
    refine ⟨?_, rfl, hpark⟩
    cases hstatus : k.status <;> simp [Mutator.withdrawRequest, hstatus]
  suspended id m hm hpos := by
    have hturns := (Section.releases : r.Section 0 _ _ _).turns id
    rw [hm] at hturns
    have hrunning : m.status ≠ .running := hturns.heeds (h id) hpos
    cases hstatus : m.status with
    | running => exact (hrunning hstatus).elim
    | safepointRequested => exact .inl rfl
    | blocked => exact .inr (.inl rfl)
    | suspended => exact .inr (.inr rfl)

end Release

end Registry

namespace World

variable {w : World} {t e : Nat} {x : Runtime}

/-- **Nobody who is suspended runs.** -/
theorem heeds_after (s : EngineSpec) (label : String) (moves : List Move)
    (hx : ((start s label).after moves).engines[e]? = some x) : x.registry.Heeds := by
  intro id k hk
  have hrecord : ((start s label).after moves).crew.record e id = some k := by
    rw [record_crew, hx]
    exact hk
  refine record_induction s label (fun hmasked h => ?_)
    (fun hturns h => hturns.heeds h) moves hrecord
  obtain ⟨-, hstatus, hcount, -⟩ := Mutator.of_masked hmasked
  rw [hstatus, hcount]
  exact h

section Failures

variable {reason : Reason} {rest : List Task} {during past : List Move} {err : Error} {n : Nat}
  {r : Reply} {ticks : Nat} {told : List Notice} {ends : List Reply} {holder : Option (Nat × Leg)}
  {front : List Task} {more : List Move} {m : Move} {tasks : List Task} {a : Option Reply}

/-- Whether a thread begins a collection, above the given tasks on its stack, and moves after which
this one fails. -/
structure FailsToCollect (w : World) (t e : Nat) (reason : Reason) (rest : List Task)
    (during : List Move) (err : Error) : Prop where
  begins : ∃ r, w.stackOf t = some ⟨collectTasks e reason ++ rest, r⟩
  /-- Meanwhile the thread leaves no collection of that engine. -/
  lasts : ∀ past, past ++ [.step t] <+: during →
    ((w.after past).taken (.step t)).elim [] (Stack.ends e) = []
  fails : (w.after during).stackOf t = some ⟨.unlockCollector e :: .checkpoint e :: rest,
      .failed err⟩

/-- Whether a thread has told agents that it begins the collection after `n` cycles. -/
def HasAnnounced (w : World) (t e : Nat) (past : List Move) (n : Nat) : Prop :=
  ∃ first rest r, first ++ [.step t] <+: past ∧
    (w.after first).stackOf t = some ⟨.dispatch e (.gcStarted (n + 1)) :: rest, r⟩

/-- Whether a thread has given up to stop the world, and let it go. -/
def HasTakenBack (w : World) (t e : Nat) (past : List Move) : Prop :=
  ∃ first x x', first ++ [.step t] <+: past ∧ (w.after first).engines[e]? = some x ∧
    (w.after (first ++ [.step t])).engines[e]? = some x' ∧ x.registry.TakesBack x'.registry

/-- Whether no step of a thread has changed what engines keep. -/
def HasKept (w : World) (t : Nat) (past : List Move) : Prop :=
  ∀ first, first ++ [.step t] <+: past →
    (w.after (first ++ [.step t])).imprints = (w.after first).imprints

/-- What a collection leaves behind that fails after moves. -/
structure LeavesNoTrace (w : World) (t e : Nat) (during : List Move) (err : Error) : Prop where
  /-- It fails because some threads came too late. -/
  late : ∃ text, err = .timeout text
  /-- Nothing that it did has changed objects, references, a clock, statistics, finalizers, the
  number of cycles or a suspension in any engine. -/
  kept : w.HasKept t during
  /-- It has let the world go. -/
  takenBack : w.HasTakenBack t e during
  /-- It has told agents its number, the collector is idle and has counted no cycle, and the next
  collection that has a report has this number again. -/
  numbered : ∃ n, w.HasAnnounced t e during n ∧
    (∃ x, (w.after during).engines[e]? = some x ∧ x.collector = ⟨.idle, n, some t⟩) ∧
    ∀ more rp others, reports ((w.after during).endings e more) = rp :: others → rp.cycle = n + 1

theorem HasAnnounced.mono (h : w.HasAnnounced t e past n) (hle : past <+: more) :
    w.HasAnnounced t e more n := by
  obtain ⟨first, rest, r, hfirst, hs⟩ := h
  exact ⟨first, rest, r, hfirst.trans hle, hs⟩

theorem HasTakenBack.mono (h : w.HasTakenBack t e past) (hle : past <+: more) :
    w.HasTakenBack t e more := by
  obtain ⟨first, x, x', hfirst, hrest⟩ := h
  exact ⟨first, x, x', hfirst.trans hle, hrest⟩

theorem HasKept.snoc (h : w.HasKept t past)
    (hm : m = .step t → ((w.after past).move m).imprints = (w.after past).imprints) :
    w.HasKept t (past ++ [m]) := by
  intro first hfirst
  rcases List.prefix_concat_iff.mp hfirst with heq | hle
  · obtain ⟨rfl, hstep⟩ := List.append_inj' heq rfl
    cases hstep
    rw [after_append]
    exact hm rfl
  · exact h first hle

theorem pauses_append (moves more : List Move) :
    w.pauses e (moves ++ more) = w.pauses e moves + (w.after moves).pauses e more := by
  rw [pauses, steps_append, List.map_append, List.sum_append]
  rfl

theorem cycles_of_begins (h : Serial w.floor e told ticks ends holder)
    (hs : w.stackOf t = some ⟨.beginCycle e reason :: rest, r⟩) (hx : w.engines[e]? = some x) :
    x.collector.cycles = (reports ends).length := by
  have hshows : x.collector = _ := h.shows (Serial.exists_board hx)
  have hstands := h.stands ((threads_floor t).trans hs)
  generalize hleg : legOf holder t = leg at hstands
  generalize hy : (⟨.beginCycle e reason :: rest, r⟩ : Stack) = y at hstands
  cases hstands with
  | outside hall =>
    subst hy
    simp [Task.isOuter, Task.isInner] at hall
  | waits hfront => cases hfront <;> cases hy
  | @inside front back _ leg hfront =>
    obtain rfl := Serial.eq_of_legOf hleg
    cases front with
    | nil => cases hy
    | cons task front =>
      obtain ⟨rfl, -⟩ := List.cons.inj ((Stack.mk.inj hy).1.trans (List.cons_append ..))
      cases hfront with
      | passes htask | delivers htask => cases htask
      | begins =>
        rw [hshows]
        rfl

theorem isOuter_of_begins (h : Serial w.floor e told ticks ends holder)
    (hs : w.stackOf t = some ⟨collectTasks e reason ++ rest, r⟩) :
    rest.all (Task.isOuter e) = true := by
  have hstands := h.stands ((threads_floor t).trans hs)
  generalize legOf holder t = leg at hstands
  generalize hy : (⟨collectTasks e reason ++ rest, r⟩ : Stack) = y at hstands
  cases hstands with
  | outside hall =>
    subst hy
    simp [collectTasks, Task.isOuter, Task.isInner] at hall
  | waits hfront hrest =>
    cases hfront with
    | asks =>
      cases hy
      exact hrest
    | enters | waits => cases hy
  | @inside front back _ leg hfront =>
    cases front with
    | nil => cases hy
    | cons task front =>
      obtain ⟨rfl, -⟩ := List.cons.inj ((Stack.mk.inj hy).1.trans (List.cons_append ..))
      cases hfront with
      | passes htask | delivers htask => cases htask

/-- A collection fails because some threads came too late, and it has counted neither a pause nor a
cycle. -/
theorem eq_of_failed (h : Serial w.floor e told ticks ends holder)
    (hs : w.stackOf t = some ⟨.unlockCollector e :: .checkpoint e :: rest, .failed err⟩) :
    (∃ text, err = .timeout text) ∧
    holder = some (t, ⟨.idle, 0, 0, [.gcStarted ((reports ends).length + 1)]⟩) := by
  have hstands := h.stands ((threads_floor t).trans hs)
  generalize hleg : legOf holder t = leg at hstands
  generalize hy : (⟨.unlockCollector e :: .checkpoint e :: rest, .failed err⟩ : Stack) =
    y at hstands
  cases hstands with
  | outside hall =>
    subst hy
    simp [Task.isOuter, Task.isInner] at hall
  | waits hfront => cases hfront <;> cases hy
  | @inside front back _ leg hfront =>
    obtain rfl := Serial.eq_of_legOf hleg
    cases front with
    | nil =>
      cases hy
      cases hfront with
      | failed => exact ⟨⟨_, rfl⟩, rfl⟩
    | cons task front =>
      obtain ⟨rfl, -⟩ := List.cons.inj ((Stack.mk.inj hy).1.trans (List.cons_append ..))
      cases hfront with
      | passes htask | delivers htask => cases htask

theorem exists_engine_of_unlocks {s : Stack} (h : Serial w.floor e told ticks ends holder)
    (hs : w.stackOf t = some s) (hmem : .unlockCollector e ∈ s.tasks) :
    ∃ x, w.engines[e]? = some x := by
  refine Option.ne_none_iff_exists'.mp fun hnone => ?_
  have hall := (h.absent (by rw [boards_floor, hnone]; rfl)).2.2 ((threads_floor t).trans hs)
  have houter := List.all_eq_true.mp hall _ hmem
  simp [Task.isOuter, Task.isInner] at houter

theorem collects_of_approach {Told : Nat → Prop} {Late : Prop} {k : Nat}
    (h : Approach e Told Late front r (some k)) (hrest : rest.all (Task.isOuter e) = true)
    (hs : w.stackOf t = some ⟨front ++ .unlockCollector e :: .checkpoint e :: rest, r⟩) :
    w.collects e t = true := by
  have hunlocks : (Task.unlockCollector e).unlocks e = true := beq_self_eq_true e
  have hplain : (Task.unlockCollector e).locks e = false ∧ (Task.checkpoint e).locks e = false :=
    ⟨rfl, rfl⟩
  rw [collects, hs]
  simp [Stack.collects, h.locks, any_locks_of_isOuter hrest, hunlocks, hplain]

/-- How far a collection of a thread has come after moves, if it has not paused. -/
structure Attempt (w : World) (t e : Nat) (rest : List Task) (past : List Move) (front : List Task)
    (r : Reply) (n : Option Nat) : Prop where
  stack : (w.after past).stackOf t = some ⟨front ++ .unlockCollector e :: .checkpoint e :: rest, r⟩
  approach : Approach e (w.HasAnnounced t e past) (w.HasTakenBack t e past) front r n
  kept : w.HasKept t past

theorem Attempt.rests {n : Option Nat} (h : w.Attempt t e rest past front r n)
    (hm : m = .step t → (w.after past).step t = none) (hs : ((w.after past).move m).stackOf t =
      some ⟨front ++ .unlockCollector e :: .checkpoint e :: rest, r⟩) :
    w.Attempt t e rest (past ++ [m]) front r n where
  stack := by
    rw [after_append]
    exact hs
  approach := h.approach.imp (fun _ hn => hn.mono (List.prefix_append ..)) fun hb =>
      hb.mono (List.prefix_append ..)
  kept := h.kept.snoc fun hstep => by
    rw [hstep, move, hm hstep]
    rfl

theorem hasTakenBack_of_givesUp {i : Option ThreadId}
    (hheeds : x.registry.Heeds) (hx : (w.after past).engines[e]? = some x)
    (hs : (w.after past).stackOf t = some ⟨.registry e (.awaitStops i) :: front, r⟩)
    (hstep : ((w.after past).step t).isSome = true)
    (hs' : ((w.after past).move (.step t)).stackOf t = some ⟨tasks ++ front, a.getD r⟩)
    (htasks : tasks = []) (ha : a = some (.failed err)) :
    w.HasTakenBack t e (past ++ [.step t]) := by
  subst htasks ha
  obtain ⟨registry, p, hsection, hstack, hengines⟩ := exists_section hs hx hstep
  obtain ⟨htasks, hreply⟩ := Stack.mk.inj (Option.some.inj (hstack.symm.trans hs'))
  have hx' : (w.after (past ++ [.step t])).engines[e]? = some { x with registry := registry } := by
    rw [after_append]
    show ((w.after past).move (.step t)).engines[e]? = _
    rw [hengines, Array.getElem?_modify, if_pos rfl, hx]
    rfl
  refine ⟨past, x, _, List.prefix_refl _, hx, hx', ?_⟩
  cases Registry.section_of_step hsection with
  | misses hop => simp at hop
  | arrives => cases hreply
  | givesUp => exact hheeds.takesBack
  | waitsOn =>
    have hlength := congrArg List.length htasks
    simp [Progress.tasks] at hlength

theorem Attempt.steps {task : Task} {c : Notch} {n : Option Nat}
    (h : w.Attempt t e rest past (task :: front) r n) (hx : (w.after past).engines[e]? = some x)
    (hheeds : x.registry.Heeds) (hstep : ((w.after past).step t).isSome = true)
    (hproduces : task.Produces (w.after past).engines t r tasks a c)
    (hs' : ((w.after past).move (.step t)).stackOf t =
      some ⟨tasks ++ (front ++ .unlockCollector e :: .checkpoint e :: rest), a.getD r⟩) :
    (∃ n', w.Attempt t e rest (past ++ [.step t]) (tasks ++ front) (a.getD r) n' ∧
      (n' = n ∨ (∃ reason, task = .beginCycle e reason) ∧ n' = some x.collector.cycles)) ∨
    ∃ k i reason, n = some k ∧ task = .pause e (k + 1) reason ∧ r = .count i := by
  have hcalm : task.isCalm = true → tasks.all Task.isCalm = true := by
    intro htask
    obtain ⟨l, v, hl, hstack⟩ := exists_calm htask h.stack hstep
    obtain ⟨hsame, -⟩ := Stack.mk.inj (Option.some.inj (hstack.symm.trans hs'))
    rwa [← List.append_cancel_right hsame]
  have hstack : (w.after (past ++ [.step t])).stackOf t =
      some ⟨(tasks ++ front) ++ .unlockCollector e :: .checkpoint e :: rest, a.getD r⟩ := by
    rw [after_append, List.append_assoc]
    exact hs'
  have hnext : Approach.Next e (w.HasAnnounced t e (past ++ [.step t]))
      (w.HasTakenBack t e (past ++ [.step t])) x n task r (tasks ++ front) (a.getD r) :=
    h.approach.step hx hproduces hcalm ?_ ?_
  · cases hnext with
    | stays h' hpause =>
      refine .inl ⟨n, ⟨hstack, h', h.kept.snoc fun _ => imprints_step h.stack ?_⟩, .inl rfl⟩
      exact h.approach.isGentle.imp_right fun ⟨cycle, reason, htask⟩ =>
        ⟨e, cycle, reason, htask, hpause e cycle reason htask⟩
    | learns hn htask h' =>
      refine .inl ⟨_, ⟨hstack, h', h.kept.snoc fun _ => imprints_step h.stack (.inl ?_)⟩,
        .inr ⟨htask, rfl⟩⟩
      obtain ⟨reason, rfl⟩ := htask
      rfl
    | pauses hn htask hr => exact .inr ⟨_, _, _, hn, htask, hr⟩
  · rintro k (hk | rfl)
    · exact hk.mono (List.prefix_append ..)
    · exact ⟨past, _, _, List.prefix_refl _, h.stack⟩
  · rintro (hback | ⟨i, err, rfl, htasks, ha⟩)
    · exact hback.mono (List.prefix_append ..)
    · exact hasTakenBack_of_givesUp hheeds hx h.stack hstep hs' htasks ha

variable {s : EngineSpec} {label : String} {before : List Move}
  (h : ((start s label).after before).FailsToCollect t e reason rest during err)

include h

theorem FailsToCollect.taken_ends (hpast : past ++ [.step t] <+: during) :
    (((start s label).after (before ++ past)).taken (.step t)).elim [] (Stack.ends e) = [] := by
  rw [after_append]
  exact h.lasts past hpast

theorem FailsToCollect.taken_ticks (hpast : past ++ [.step t] <+: during)
    (hcollects : ((start s label).after (before ++ past)).collects e t = true) :
    (((start s label).after (before ++ past)).taken (.step t)).elim 0 (Stack.ticks e) = 0 := by
  obtain ⟨more, rfl⟩ := hpast
  obtain ⟨holder, hserial⟩ := serial_after s label (before ++ past) e
  obtain ⟨holder', hserial'⟩ := serial_after s label (before ++ (past ++ [.step t] ++ more)) e
  have hsplit :
      before ++ (past ++ [.step t] ++ more) = (before ++ past) ++ ([.step t] ++ more) := by simp
  -- no other collection ends after this one has taken the lock, and it fails without a pause
  have hends : (start s label).endings e (before ++ (past ++ [.step t] ++ more)) =
      (start s label).endings e (before ++ past) := by
    rw [hsplit]
    refine (collects_after s label (before ++ past) _ hcollects fun first hfirst => ?_).2
    rw [List.append_assoc]
    refine h.taken_ends ?_
    rw [List.append_assoc, List.append_assoc]
    exact (List.prefix_append_right_inj past).mpr hfirst
  have hfails := h.fails
  rw [← after_append] at hfails
  obtain ⟨-, rfl⟩ := eq_of_failed hserial' hfails
  have hlast : (start s label).pauses e (before ++ (past ++ [.step t] ++ more)) =
      (reports ((start s label).endings e (before ++ past))).length := by
    rw [hserial'.ticks, hends]
    rfl
  have hsum : (start s label).pauses e (before ++ (past ++ [.step t] ++ more)) =
      (start s label).pauses e (before ++ past ++ [.step t]) +
        ((start s label).after (before ++ past ++ [.step t])).pauses e more := by
    rw [← pauses_append]
    simp
  have hfirst := hserial.ticks
  rw [pauses_snoc] at hsum
  omega

/-- **A collection that fails has not paused.** -/
theorem exists_attempt (hpast : past <+: during) :
    ∃ front r n, ((start s label).after before).Attempt t e rest past front r n ∧
    ∀ k, n = some k → (reports ((start s label).endings e (before ++ past))).length = k := by
  have hrun : ∀ past, ((start s label).after before).after past =
      (start s label).after (before ++ past) := fun past => (after_append before past).symm
  have houter : rest.all (Task.isOuter e) = true := by
    obtain ⟨r, hs⟩ := h.begins
    obtain ⟨holder, hserial⟩ := serial_after s label before e
    exact isOuter_of_begins hserial hs
  induction past using List.reverseRecOn with
  | nil =>
    obtain ⟨r, hs⟩ := h.begins
    refine ⟨[.blocking .pause (.lockCollector e), .beginCycle e reason], r, none,
      ⟨hs, .asks, fun first hfirst => ?_⟩, nofun⟩
    have hlength := hfirst.length_le
    simp at hlength
  | append_singleton past m ih =>
    obtain ⟨front, r, n, hattempt, hnumber⟩ := ih ((List.prefix_append ..).trans hpast)
    obtain ⟨holder, hserial⟩ := serial_after s label (before ++ past) e
    have hs := hattempt.stack
    rw [hrun] at hs
    -- nobody else leaves a collection while this one has the lock
    have hsame : ∀ k, n = some k →
        (reports ((start s label).endings e (before ++ (past ++ [m])))).length = k := by
      rintro k rfl
      have hcollects := collects_of_approach hattempt.approach houter hs
      have hends :
          (((start s label).after (before ++ past)).taken m).elim [] (Stack.ends e) = [] := by
        by_cases hm : m = .step t
        · subst hm
          exact h.taken_ends hpast
        · exact ends_of_collects hserial hcollects hm
      rw [← List.append_assoc, endings_snoc, hends, List.append_nil]
      exact hnumber k rfl
    cases front with
    | nil =>
      cases continues_move hs (fun _ => Task.noConfusion) m with
      | rests hm hs' => exact ⟨[], r, n, hattempt.rests (by rwa [hrun]) (by rwa [hrun]), hsame⟩
      | steps hm hstep =>
        subst hm
        have hends := h.taken_ends hpast
        rw [taken_of_some hstep, hs] at hends
        simp [Stack.ends, Task.ends] at hends
    | cons task front =>
      cases continues_move hs hattempt.approach.ne_perform m with
      | rests hm hs' => exact ⟨_, r, n, hattempt.rests (by rwa [hrun]) (by rwa [hrun]), hsame⟩
      | steps hm hstep hproduces hs' =>
        subst hm
        obtain ⟨x, hx⟩ := exists_engine_of_unlocks hserial hs (by simp)
        have hsteps := hattempt.steps (by rwa [hrun])
          (heeds_after s label (before ++ past) hx) (by rwa [hrun]) (by rwa [hrun]) (by rwa [hrun])
        obtain ⟨n', hattempt', hn'⟩ | ⟨k, i, reason, rfl, rfl, rfl⟩ := hsteps
        · refine ⟨_, _, n', hattempt', ?_⟩
          rintro k rfl
          rcases hn' with hn | ⟨⟨reason, rfl⟩, hn⟩
          · exact hsame k hn.symm
          · cases hn
            rw [← List.append_assoc, endings_snoc, h.taken_ends hpast, List.append_nil]
            exact (cycles_of_begins hserial hs hx).symm
        · have hticks := h.taken_ticks hpast (collects_of_approach hattempt.approach houter hs)
          rw [taken_of_some hstep, hs] at hticks
          simp [Stack.ticks, Task.ticks] at hticks

omit h

theorem cycle_of_next {moves : List Move} {rp : Report} {others : List Report}
    (h : reports (((start s label).after moves).endings e more) = rp :: others) :
    rp.cycle = (reports ((start s label).endings e moves)).length + 1 := by
  obtain ⟨holder, hserial⟩ := serial_after s label (moves ++ more) e
  have hnumbered := hserial.numbered
  rw [endings_append, reports_append, h, List.map_append] at hnumbered
  have hnext := congrArg (·[(reports ((start s label).endings e moves)).length]?) hnumbered
  simp only [List.map_cons, List.getElem?_append_right (Nat.le_of_eq (List.length_map ..)),
    List.length_map, Nat.sub_self,
    List.getElem?_cons_zero, List.length_append, List.length_cons] at hnext
  rw [List.getElem?_range' (by omega)] at hnext
  have hcycle := Option.some.inj hnext
  omega

/-- **A collection that fails because some threads came too late leaves no trace.** -/
theorem leavesNoTrace_after (s : EngineSpec) (label : String) (before during : List Move)
    (t e : Nat) (reason : Reason) (rest : List Task) (err : Error)
    (h : ((start s label).after before).FailsToCollect t e reason rest during err) :
    ((start s label).after before).LeavesNoTrace t e during err := by
  obtain ⟨front, r, n, hattempt, hnumber⟩ := exists_attempt h (List.prefix_refl during)
  obtain ⟨hfront, rfl⟩ := Stack.mk.inj (Option.some.inj (hattempt.stack.symm.trans h.fails))
  obtain rfl : front = [] := List.append_left_eq_self.mp hfront
  obtain ⟨holder, hserial⟩ := serial_after s label (before ++ during) e
  have hfails := h.fails
  rw [← after_append] at hfails
  obtain ⟨hlate, rfl⟩ := eq_of_failed hserial hfails
  obtain ⟨x, hx⟩ := exists_engine hserial
  have hcollector : x.collector = _ := hserial.shows (Serial.exists_board hx)
  cases hattempt.approach with
  | @failed k text hannounced htaken =>
    refine ⟨hlate, hattempt.kept, htaken, k, hannounced, ⟨x, ?_, ?_⟩,
      fun more rp others hmore => ?_⟩
    · rw [← after_append]
      exact hx
    · rw [hcollector, hnumber k rfl]
      rfl
    · rw [← after_append] at hmore
      rw [cycle_of_next hmore, hnumber k rfl]

/-- Three threads are attached, one of them is suspended but does not come in, and another one is
about to collect. -/
def lazyMoves : List Move :=
  [.call "main", .call "worker", .call "other"] ++ given 0 0 (.attach "gc" "main") 8 ++
    given 1 1 (.attach "gc" "worker") 8 ++ given 2 2 (.attach "gc" "other") 8 ++
    given 0 3 (.requestSuspend "gc" 2 1) 8 ++ given 0 4 (.collect "gc" (some .explicit)) 2

/-- It waits for the other two until its time has run out. -/
def lateCollection : List Move := List.replicate 10 (.step 0) ++ [.expire 0, .step 0, .step 0]

/-- Whether the first thread is about to collect. -/
def collectsNext : Option Stack → Bool
  | some ⟨[.blocking .pause (.lockCollector 0), .beginCycle 0 .explicit, .unlockCollector 0,
      .checkpoint 0, .conclude 0 .plain], _⟩ => true
  | _ => false

def failedNext : Option Stack → Bool
  | some ⟨[.unlockCollector 0, .checkpoint 0, .conclude 0 .plain], .failed _⟩ => true
  | _ => false

/-- The collection fails and leaves no trace; the thread that nobody has suspended runs, the other
one is still asked. -/
theorem leavesNoTrace_lazy : ∃ err,
    ((start standardEngine "gc").after lazyMoves).FailsToCollect 0 0 .explicit
      [.conclude 0 .plain] lateCollection err ∧
    ((start standardEngine "gc").after lazyMoves).LeavesNoTrace 0 0 lateCollection err ∧
    ((((start standardEngine "gc").after lazyMoves).after lateCollection).engines[0]?).map (fun x =>
      x.registry.mutators.map fun m => (m.id, m.status)) =
      some [(1, .running), (2, .safepointRequested), (3, .running)] := by
  have hbegins : ∃ r, ((start standardEngine "gc").after lazyMoves).stackOf 0 =
      some ⟨collectTasks 0 .explicit ++ [.conclude 0 .plain], r⟩ := by
    have hnext : collectsNext (((start standardEngine "gc").after lazyMoves).stackOf 0) = true := by
      decide +kernel
    unfold collectsNext at hnext
    split at hnext
    · next r hs => exact ⟨r, hs⟩
    · cases hnext
  have hfails : ∃ err,
      (((start standardEngine "gc").after lazyMoves).after lateCollection).stackOf 0 =
      some ⟨[.unlockCollector 0, .checkpoint 0, .conclude 0 .plain], .failed err⟩ := by
    have hnext : failedNext ((((start standardEngine "gc").after lazyMoves).after
          lateCollection).stackOf 0) = true := by
      decide +kernel
    unfold failedNext at hnext
    split at hnext
    · next err hs => exact ⟨err, hs⟩
    · cases hnext
  have hlasts : ∀ n < lateCollection.length,
      (((((start standardEngine "gc").after lazyMoves).after (lateCollection.take n)).taken
        (.step 0)).elim [] (Stack.ends 0)).isEmpty = true := by decide +kernel
  obtain ⟨err, hfails⟩ := hfails
  have hfailure : ((start standardEngine "gc").after lazyMoves).FailsToCollect 0 0 .explicit
      [.conclude 0 .plain] lateCollection err := by
    refine ⟨hbegins, fun past hpast => ?_, hfails⟩
    have hlength := hpast.length_le
    rw [List.length_append, List.length_singleton] at hlength
    have htake := List.prefix_iff_eq_take.mp ((List.prefix_append ..).trans hpast)
    have hends := List.isEmpty_iff.mp (hlasts past.length hlength)
    rwa [← htake] at hends
  exact ⟨err, hfailure, leavesNoTrace_after _ _ _ _ _ _ _ _ _ hfailure, by decide +kernel⟩

end Failures

end World

end ManagedHeap
