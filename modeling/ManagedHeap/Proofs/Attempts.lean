import ManagedHeap.Proofs.Serialization

/-!
# Up to the pause

**Input.**  A thread that has begun to collect, and what threads do meanwhile.

**Algorithm.**  Up to its pause a collection takes a lock, tells agents that it begins, and waits
for the world to stand still.  None of that touches a heap, a count or a queue.  A collection that
cannot stop the world in time lets it go again, sets the phase back and ends; one that can stop it
pauses, and will end with a report.

**Results.**  `World.imprints_step`: which tasks leave what engines keep as it is.  `Approach` says
what stands on the stack of a thread that has not paused, `Approach.step`: a step leads from one
place to the next, or it is the pause.
-/

namespace ManagedHeap

section Imprints

def Registry.counts (r : Registry) : List (ThreadId × Nat) :=
  r.mutators.map fun m => (m.id, m.suspendCount)

/-- What an engine keeps: objects and references with their clock, statistics, finalizers, the
number of cycles, and suspensions. -/
structure Imprint where
  heap : Heap Finalizer
  statistics : Statistics
  finalization : Finalization Finalizer
  cycles : Nat
  counts : List (ThreadId × Nat)

def Engine.imprint (x : Runtime) : Imprint :=
  ⟨x.heap, x.statistics, x.finalization, x.collector.cycles, x.registry.counts⟩

/-- Whether a call on a registry leaves all counts as they are. -/
def Operation.isGentle : Operation → Bool
  | .poll _ | .enterBlocking _ | .leaveBlocking .. | .parked .. | .stopWorld _ | .awaitStops _
  | .releaseWorld => true
  | _ => false

/-- Whether a task leaves what engines keep as it is. -/
def Task.isGentle : Task → Bool
  | .registry _ op => op.isGentle
  | .checkpoint _ | .blocking .. | .endRegion | .dispatch .. | .deliver .. | .delivered _
  | .gate _ => true
  | .lockCollector _ | .unlockCollector _ | .beginCycle .. | .setPhase .. | .reply _ => true
  | _ => false

namespace Registry

variable {r r' : Registry} {thread : Nat} {op : Operation} {p : Progress}

theorem counts_of_map (hg : ∀ m, (g m).id = m.id ∧ (g m).suspendCount = m.suspendCount)
    (h : r'.mutators = r.mutators.map g) : r'.counts = r.counts := by
  unfold counts
  rw [h, List.map_map]
  refine List.map_congr_left fun m _ => ?_
  rw [Function.comp_apply, (hg m).1, (hg m).2]

theorem counts_update {id : ThreadId} {f : Mutator → Mutator}
    (hf : ∀ m, (f m).id = m.id ∧ (f m).suspendCount = m.suspendCount) :
    (r.update id f).counts = r.counts := by
  refine counts_of_map (fun m => ?_) rfl
  split
  · exact hf m
  · exact ⟨rfl, rfl⟩

theorem counts_requestStop (m : Mutator) :
    m.requestStop.id = m.id ∧ m.requestStop.suspendCount = m.suspendCount := by
  unfold Mutator.requestStop
  split <;> exact ⟨rfl, rfl⟩

theorem Section.counts (h : r.Section thread op r' p) (hop : op.isGentle = true) :
    r'.counts = r.counts := by
  cases h with
  | comesIn | stays | passes | blocks => exact counts_update fun _ => ⟨rfl, rfl⟩
  | leaves | goesOn =>
    exact counts_update fun _ => ⟨Mutator.id_resumeRunning, Mutator.suspendCount_resumeRunning⟩
  | sleepsOn | waits | arrives | waitsOn => rfl
  | misses hno => rcases hno with rfl | rfl <;> cases hop
  | stops | asks =>
    refine counts_of_map (fun m => ?_) rfl
    split
    · exact ⟨rfl, rfl⟩
    · exact counts_requestStop m
  | givesUp | releases =>
    refine counts_of_map (fun m => ?_) rfl
    split <;> exact ⟨rfl, rfl⟩
  | _ => cases hop

end Registry

namespace World

variable {w w' : World} {t e : Nat} {task : Task}

def imprints (w : World) : Array Imprint := w.engines.map Engine.imprint

theorem imprints_modifyEngine (h : ∀ x, w.engines[e]? = some x → (f x).imprint = x.imprint) :
    (w.modifyEngine e f).imprints = w.imprints := by
  refine Array.ext_getElem? fun k => ?_
  unfold imprints modifyEngine
  rw [Array.getElem?_map, Array.getElem?_map, Array.getElem?_modify]
  split
  · next hk =>
      subst hk
      cases hx : w.engines[e]? with
      | none => rfl
      | some x => exact congrArg some (h x hx)
  · rfl

theorem imprints_log (event : Event) : (w.log e event).imprints = w.imprints := by
  unfold log
  split
  · rfl
  · next x hx =>
      exact imprints_modifyEngine (f := fun y => { y with journal := (x.journal.log event).1 })
        fun _ _ => rfl

theorem imprints_runOperation (hop : op.isGentle = true) (h : w.runOperation t e op = some w') :
    w'.imprints = w.imprints := by
  unfold runOperation at h
  cases hx : w.engines[e]? with
  | none =>
    rw [hx] at h
    cases h
    rfl
  | some x =>
    rw [hx] at h
    dsimp only at h
    cases hstep : x.registry.step t (w.isExpired t) op with
    | none =>
      rw [hstep] at h
      cases h
    | some result =>
      obtain ⟨registry, p⟩ := result
      rw [hstep] at h
      have hsame : (w.modifyRegistry e fun _ => registry).imprints = w.imprints := by
        refine imprints_modifyEngine fun y hy => ?_
        cases hx.symm.trans hy
        unfold Engine.imprint
        rw [(Registry.section_of_step hstep).counts hop]
      cases p <;> cases h <;> exact hsame

theorem imprints_deliver : (w.deliver t e n recipients).imprints = w.imprints := by
  unfold deliver
  split
  · rfl
  · dsimp only
    split <;> rfl

/-- **What leaves the engines as they are.** -/
theorem imprints_runTask (htask : task.isGentle = true) (h : w.runTask t task = some w') :
    w'.imprints = w.imprints := by
  cases task with
  | registry k op => exact imprints_runOperation htask h
  | checkpoint k =>
    cases h
    unfold checkpoint
    split
    · split <;> rfl
    · rfl
  | blocking hold body =>
    cases h
    unfold runBlocking
    split <;> rfl
  | endRegion | reply =>
    cases h
    rfl
  | dispatch k n =>
    cases h
    unfold dispatch
    split <;> rfl
  | deliver k n recipients =>
    cases h
    exact imprints_deliver
  | delivered k | unlockCollector k | setPhase k p =>
    cases h
    exact imprints_modifyEngine fun _ _ => rfl
  | gate name =>
    simp only [runTask, passGate] at h
    split at h <;> cases h
    rfl
  | lockCollector k =>
    simp only [runTask, lockCollector] at h
    cases hx : w.engines[k]? with
    | none =>
      rw [hx] at h
      cases h
      rfl
    | some x =>
      rw [hx] at h
      dsimp only at h
      split at h <;> cases h
      exact imprints_modifyEngine fun _ _ => rfl
  | beginCycle k reason =>
    cases h
    unfold beginCycle
    split
    · rfl
    · exact imprints_log _
  | _ => cases htask

theorem imprints_pauseWorld (h : ∀ k, w.replyOf t ≠ .count k) :
    (w.pauseWorld t e cycle reason).imprints = w.imprints := by
  unfold pauseWorld
  split
  · next k x hk hx => exact (h k hk).elim
  · exact imprints_modifyEngine fun _ _ => rfl

/-- **Whatever else threads do, a step with such a task leaves the engines as they are.** -/
theorem imprints_step {rest : List Task} {r : Reply} (hs : w.stackOf t = some ⟨task :: rest, r⟩)
    (htask : task.isGentle = true ∨ ∃ k cycle reason, task = .pause k cycle reason ∧
      ∀ n, r ≠ .count n) : (w.move (.step t)).imprints = w.imprints := by
  obtain ⟨y, hy, htasks, rfl⟩ := exists_thread_of_stackOf hs
  cases h : w.step t with
  | none => rw [move, h]; rfl
  | some w' =>
    obtain ⟨x, task', rest', after, hx, htasks', hrun, rfl⟩ := exists_task_of_step h
    cases hy.symm.trans hx
    cases htasks.symm.trans htasks'
    have hafter : after.imprints = w.imprints := by
      rcases htask with hgentle | ⟨k, cycle, reason, rfl, hr⟩
      · have hsame := imprints_runTask hgentle hrun
        exact hsame
      · cases hrun
        refine imprints_pauseWorld fun n hn => hr n ?_
        rw [← hn]
        exact (replyOf_take hy rest).symm
    rw [move, h]
    exact hafter

end World

end Imprints

open World (collectTasks)

/-- Whether a task is done on the way to the pause, and leaves only such tasks. -/
def Task.isCalm : Task → Bool
  | .registry _ (.leaveBlocking _ .pause) | .registry _ (.parked _ .pause) | .endRegion | .gate _
  | .delivered _ => true
  | _ => false

/-- What stands on the stack of a thread above the release of the lock of a collector as long as its
collection has not paused, and the number of cycles before it, once this is known.  `Told` and
`Late` are what is known of a collection that has told agents of its number, and of one that has
given up. -/
inductive Approach (e : Nat) (Told : Nat → Prop) (Late : Prop) :
    List Task → Reply → Option Nat → Prop
  | calm {task : Task} (htask : task.isCalm = true) (h : ∀ r, Approach e Told Late front r n) :
      Approach e Told Late (task :: front) r n
  | asks : Approach e Told Late [.blocking .pause (.lockCollector e), .beginCycle e reason] r none
  | enters {id : ThreadId} :
      Approach e Told Late [.registry k (.enterBlocking id), .lockCollector e,
        .registry k (.leaveBlocking id .pause), .endRegion, .beginCycle e reason] r none
  | waits (hl : l.all Task.isCalm = true) :
      Approach e Told Late (.lockCollector e :: (l ++ [.beginCycle e reason])) r none
  | begins : Approach e Told Late [.beginCycle e reason] r none
  | announces : Approach e Told Late [.dispatch e (.gcStarted (n + 1)), .setPhase e .stopping,
        .registry e (.stopWorld i), .pause e (n + 1) reason] r (some n)
  | tells (htold : Told n) :
      Approach e Told Late [.deliver e (.gcStarted (n + 1)) recipients, .setPhase e .stopping,
          .registry e (.stopWorld i), .pause e (n + 1) reason] r (some n)
  | readies (htold : Told n) : Approach e Told Late [.setPhase e .stopping,
        .registry e (.stopWorld i), .pause e (n + 1) reason] r (some n)
  | stops (htold : Told n) :
      Approach e Told Late [.registry e (.stopWorld i), .pause e (n + 1) reason] r (some n)
  | awaits (htold : Told n) :
      Approach e Told Late [.registry e (.awaitStops i), .pause e (n + 1) reason] r (some n)
  | stopped (htold : Told n) : Approach e Told Late [.pause e (n + 1) reason] (.count k) (some n)
  /-- The world could not be stopped in time. -/
  | late (htold : Told n) (hlate : Late) :
      Approach e Told Late [.pause e (n + 1) reason] (.failed (.timeout text)) (some n)
  | failed (htold : Told n)
      (hlate : Late) : Approach e Told Late [] (.failed (.timeout text)) (some n)

namespace Approach

variable {e t : Nat} {Told Told' : Nat → Prop} {Late Late' : Prop}
  {task : Task} {front tasks : List Task} {r : Reply}
  {n : Option Nat} {a : Option Reply} {c : Notch} {engines : Array Runtime} {x : Runtime}

theorem imp (h : Approach e Told Late front r n) (htold : ∀ n, Told n → Told' n)
    (hlate : Late → Late') : Approach e Told' Late' front r n := by
  induction h with
  | calm htask _ ih => exact .calm htask ih
  | asks => exact .asks
  | enters => exact .enters
  | waits hl => exact .waits hl
  | begins => exact .begins
  | announces => exact .announces
  | tells h => exact .tells (htold _ h)
  | readies h => exact .readies (htold _ h)
  | stops h => exact .stops (htold _ h)
  | awaits h => exact .awaits (htold _ h)
  | stopped h => exact .stopped (htold _ h)
  | late h h' => exact .late (htold _ h) (hlate h')
  | failed h h' => exact .failed (htold _ h) (hlate h')

theorem append_calm (h : ∀ r, Approach e Told Late front r n)
    (htasks : tasks.all Task.isCalm = true) (r : Reply) :
    Approach e Told Late (tasks ++ front) r n := by
  induction tasks generalizing r with
  | nil => exact h r
  | cons task tasks ih =>
    rw [List.all_cons, Bool.and_eq_true] at htasks
    exact .calm htasks.1 (ih htasks.2)

variable (h : Approach e Told Late (task :: front) r n)

include h

/-- Nothing that stands there touches the engines, but the pause itself. -/
theorem isGentle : task.isGentle = true ∨ ∃ cycle reason, task = .pause e cycle reason := by
  cases h with
  | calm htask =>
    refine .inl ?_
    cases task with
    | registry k op => cases op <;> first | rfl | cases htask
    | _ => first | rfl | cases htask
  | stopped | late => exact .inr ⟨_, _, rfl⟩
  | _ => exact .inl rfl

theorem ne_perform (i : Instruction) : task ≠ .perform i := by
  rintro rfl
  rcases h.isGentle with hno | ⟨_, _, hno⟩ <;> cases hno

omit h

theorem locks (h : Approach e Told Late front r (some k)) : front.any (Task.locks e) = false := by
  generalize hn : some k = n at h
  induction h with
  | @calm _ _ _ task htask _ ih =>
    have hlocks : task.locks e = false := by cases task <;> first | rfl | cases htask
    rw [List.any_cons, hlocks, ih .unit hn]
    rfl
  | asks | enters | waits | begins => cases hn
  | _ => rfl

/-- What a step of a collection leads to: the next place before the pause, with the number of the
cycle once the collector was asked, or the pause. -/
inductive Next (e : Nat) (Told : Nat → Prop) (Late : Prop) (x : Runtime) (n : Option Nat)
    (task : Task) (r : Reply) (front : List Task) (r' : Reply) : Prop
  | stays (h : Approach e Told Late front r' n)
      (hpause : ∀ k cycle reason, task = .pause k cycle reason → ∀ i, r ≠ .count i)
  | learns (hn : n = none) (htask : ∃ reason, task = .beginCycle e reason)
      (h : Approach e Told Late front r' (some x.collector.cycles))
  | pauses {k i : Nat} {leg : Leg} {reason : Reason}
      (hn : n = some k) (htask : task = .pause e (k + 1) reason)
      (hr : r = .count i) (h : Course e k front r' leg) (hleg : leg.ticks = 1)

include h

/-- **A step leads a collection from one place before its pause to the next.** -/
theorem step (hx : engines[e]? = some x) (hproduces : task.Produces engines t r tasks a c)
    (hcalm : task.isCalm = true → tasks.all Task.isCalm = true)
    (htold : ∀ k, Told k ∨ task = .dispatch e (.gcStarted (k + 1)) → Told' k) (hlate : Late ∨
      (∃ i err, task = .registry e (.awaitStops i) ∧ tasks = [] ∧ a = some (.failed err)) → Late') :
    Next e Told' Late' x n task r (tasks ++ front) (a.getD r) := by
  have hlt := (Array.getElem?_eq_some_iff.mp hx).1
  cases h with
  | calm htask h =>
    refine .stays (append_calm (fun r => (h r).imp (fun k hk => htold k (.inl hk)) fun hl =>
        hlate (.inl hl)) (hcalm htask) _) ?_
    rintro k cycle reason rfl
    cases htask
  | asks =>
    cases hproduces with
    | enters => exact .stays .enters (by simp)
    | nests => exact .stays (.waits rfl) (by simp)
    | _ => first | contradiction | simp_all
  | enters =>
    have hwaits : ∀ {k id reason r}, Approach e Told' Late' [.lockCollector e,
        .registry k (.leaveBlocking id .pause), .endRegion, .beginCycle e reason] r none :=
      .waits (l := [.registry _ (.leaveBlocking _ .pause), .endRegion]) rfl
    cases hproduces with
    | strays => exact .stays hwaits (by simp)
    | operates hy hstep =>
      cases Registry.section_of_step hstep with
      | misses hop => simp at hop
      | blocks => exact .stays hwaits (by simp)
    | _ => first | contradiction | simp_all
  | waits hl =>
    obtain ⟨-, rfl, rfl, -⟩ := produces_lockCollector hproduces hx
    exact .stays (append_calm (fun _ => .begins) hl r) (by simp)
  | begins =>
    obtain ⟨i, rfl, rfl, -⟩ := produces_beginCycle hproduces hx
    exact .learns rfl ⟨_, rfl⟩ .announces
  | announces =>
    obtain ⟨rfl, rfl, -⟩ := produces_dispatch hproduces hx
    exact .stays (.tells (htold _ (.inr rfl))) (by simp)
  | tells h =>
    cases hproduces with
    | delivers => exact .stays (.calm rfl fun _ => .tells (htold _ (.inl h))) (by simp)
    | deliversAtGate =>
      exact .stays (.calm rfl fun _ => .calm rfl fun _ => .tells (htold _ (.inl h))) (by simp)
    | delivered => exact .stays (.readies (htold _ (.inl h))) (by simp)
    | _ => first | contradiction | simp_all
  | readies h =>
    obtain ⟨rfl, rfl, -⟩ := produces_setPhase hproduces
    exact .stays (.stops (htold _ (.inl h))) (by simp)
  | stops h =>
    obtain ⟨y, expired, registry, p, -, hstep, rfl, rfl, -⟩ := produces_registry hproduces hlt
    cases Registry.section_of_step hstep with
    | misses hop => simp at hop
    | waits => exact .stays (.stops (htold _ (.inl h))) (by simp)
    | stops => exact .stays (.stopped (htold _ (.inl h))) (by simp)
    | asks => exact .stays (.awaits (htold _ (.inl h))) (by simp)
  | awaits h =>
    obtain ⟨y, expired, registry, p, -, hstep, rfl, rfl, -⟩ := produces_registry hproduces hlt
    cases Registry.section_of_step hstep with
    | misses hop => simp at hop
    | arrives => exact .stays (.stopped (htold _ (.inl h))) (by simp)
    | givesUp =>
      cases Registry.eq_lateness_of_step hstep
      exact .stays (.late (htold _ (.inl h)) (hlate (.inr ⟨_, _, rfl, rfl, rfl⟩))) (by simp)
    | waitsOn => exact .stays (.awaits (htold _ (.inl h))) (by simp)
  | stopped h =>
    cases hproduces with
    | givesUp hr => exact (hr _ rfl).elim
    | pauses =>
      exact .pauses rfl rfl rfl (.passes rfl fun _ => .passes rfl fun _ => .sweeps rfl) rfl
    | _ => first | contradiction | grind [Task.engine?]
  | late h hl =>
    cases hproduces with
    | givesUp => exact .stays (.failed (htold _ (.inl h)) (hlate (.inl hl))) (by simp)
    | _ => first | contradiction | grind [Task.engine?]

end Approach

theorem Course.ne_perform (h : Course e n (task :: front) r leg) (i : Instruction) :
    task ≠ .perform i := by
  rintro rfl
  cases h with
  | passes htask | delivers htask => cases htask

theorem Stands.ends_of_none (h : Stands e n s none) : s.ends e = [] := by
  cases h with
  | outside hall =>
    rw [Stack.ends]
    cases htasks : s.tasks with
    | nil => rfl
    | cons task rest =>
      rw [htasks, List.all_cons, Bool.and_eq_true] at hall
      exact Task.ends_of_isOuter hall.1
  | @waits front rest r hfront =>
    cases front with
    | nil => cases hfront
    | cons task front => exact hfront.ends

namespace World

variable {w : World} {m : Move} {t e ticks : Nat} {task : Task} {rest : List Task} {r : Reply}
  {told : List Notice} {ends : List Reply} {holder : Option (Nat × Leg)}

section Stacks

/-- What becomes of a stack by a move. -/
inductive Continues (w : World) (m : Move) (t : Nat) (task : Task) (rest : List Task) (r : Reply) :
    Prop
  | rests (hm : m = .step t → w.step t = none) (hs : (w.move m).stackOf t = some ⟨task :: rest, r⟩)
  | steps {tasks : List Task} {a : Option Reply} {c : Notch} (hm : m = .step t)
      (hstep : (w.step t).isSome = true) (h : task.Produces w.engines t r tasks a c)
      (hs : (w.move m).stackOf t = some ⟨tasks ++ rest, a.getD r⟩)

theorem continues_move (hs : w.stackOf t = some ⟨task :: rest, r⟩) (htask : ∀ i, task ≠ .perform i)
    (m : Move) : w.Continues m t task rest r := by
  have hmove := restacks_move w m t
  rw [hs] at hmove
  generalize hs' : (w.move m).stackOf t = s' at hmove
  cases hmove with
  | same hm => exact .rests hm hs'
  | performs => exact (htask _ rfl).elim
  | steps hm hproduces =>
    subst hm
    by_cases hstep : (w.step t).isSome = true
    · exact .steps rfl hstep hproduces hs'
    · have hnone : w.step t = none := by simpa using hstep
      refine .rests (fun _ => hnone) ?_
      rw [move, hnone]
      exact hs

theorem exists_runTask (hs : w.stackOf t = some ⟨task :: rest, r⟩)
    (hstep : (w.step t).isSome = true) : ∃ after : World,
    (w.take t rest).runTask t task = some after ∧ (w.move (.step t)).stackOf t = after.stackOf t ∧
    (w.move (.step t)).engines = after.engines := by
  obtain ⟨w', hw'⟩ := Option.isSome_iff_exists.mp hstep
  obtain ⟨x, task', rest', after, hx, htasks', hrun, rfl⟩ := exists_task_of_step hw'
  obtain ⟨y, hy, htasks, -⟩ := exists_thread_of_stackOf hs
  cases hy.symm.trans hx
  cases htasks.symm.trans htasks'
  refine ⟨after, hrun, (move_of_stackOf hs hrun).1, ?_⟩
  rw [move, hw']
  rfl

theorem exists_section (hs : w.stackOf t = some ⟨.registry e op :: rest, r⟩)
    (hx : w.engines[e]? = some x) (hstep : (w.step t).isSome = true) :
    ∃ registry p, x.registry.step t (w.isExpired t) op = some (registry, p) ∧
      (w.move (.step t)).stackOf t = some ⟨p.tasks e ++ rest, p.answer?.getD r⟩ ∧
      (w.move (.step t)).engines = w.engines.modify e fun x => { x with registry := registry } := by
  obtain ⟨after, hrun, hstack, hengines⟩ := exists_runTask hs hstep
  have htaken := stackOf_take hs
  simp only [runTask, runOperation, show (w.take t rest).engines[e]? = some x from hx,
    isExpired_take] at hrun
  cases hresult : x.registry.step t (w.isExpired t) op with
  | none =>
    rw [hresult] at hrun
    cases hrun
  | some result =>
    obtain ⟨registry, p⟩ := result
    rw [hresult] at hrun
    refine ⟨registry, p, rfl, ?_⟩
    rw [hstack, hengines]
    cases p with
    | finished =>
      cases hrun
      exact ⟨htaken, rfl⟩
    | answered v =>
      cases hrun
      exact ⟨stackOf_answer htaken v, rfl⟩
    | continues op =>
      cases hrun
      exact ⟨stackOf_push htaken _, rfl⟩

theorem exists_calm (htask : task.isCalm = true) (hs : w.stackOf t = some ⟨task :: rest, r⟩)
    (hstep : (w.step t).isSome = true) : ∃ tasks a, tasks.all Task.isCalm = true ∧
    (w.move (.step t)).stackOf t = some ⟨tasks ++ rest, a⟩ := by
  have htaken := stackOf_take hs
  cases task with
  | registry k op =>
    cases hx : w.engines[k]? with
    | none =>
      obtain ⟨after, hrun, hstack, -⟩ := exists_runTask hs hstep
      cases hrun.symm.trans (runOperation_of_missing hx)
      exact ⟨[], r, rfl, hstack.trans htaken⟩
    | some x =>
      obtain ⟨registry, p, hsection, hstack, -⟩ := exists_section hs hx hstep
      refine ⟨_, _, ?_, hstack⟩
      cases Registry.section_of_step hsection with
      | @stays _ hold | @sleepsOn _ hold => cases hold <;> first | rfl | cases htask
      | leaves | goesOn => rfl
      | misses hop => rcases hop with rfl | rfl <;> cases htask
      | _ => cases htask
  | endRegion =>
    obtain ⟨after, hrun, hstack, -⟩ := exists_runTask hs hstep
    cases hrun
    refine ⟨[], r, rfl, hstack.trans ?_⟩
    obtain ⟨x, hx, htasks, hr⟩ := exists_thread_of_stackOf htaken
    rw [setRegion, stackOf_modifyThread, hx]
    simp [Thread.stack, htasks, hr]
  | gate name =>
    obtain ⟨after, hrun, hstack, -⟩ := exists_runTask hs hstep
    simp only [runTask, passGate] at hrun
    split at hrun <;> cases hrun
    exact ⟨[], r, rfl, hstack.trans htaken⟩
  | delivered k =>
    obtain ⟨after, hrun, hstack, -⟩ := exists_runTask hs hstep
    cases hrun
    exact ⟨[], r, rfl, hstack.trans htaken⟩
  | _ => cases htask

end Stacks

section Locks

theorem exists_engine (hserial : Serial w.floor e told ticks ends (some h)) :
    ∃ x, w.engines[e]? = some x := by
  refine Option.ne_none_iff_exists'.mp fun hnone => ?_
  cases (hserial.absent (by rw [boards_floor, hnone]; rfl)).2.1

variable (h : Serial w.floor e told ticks ends holder)

include h

theorem exists_course (hcollects : w.collects e t = true) :
    ∃ front rest r leg, holder = some (t, leg) ∧ Course e (reports ends).length front r leg ∧
      rest.all (Task.isOuter e) = true ∧
      w.stackOf t = some ⟨front ++ .unlockCollector e :: .checkpoint e :: rest, r⟩ := by
  obtain ⟨leg, rfl⟩ := (collects_iff h).mp hcollects
  obtain ⟨s, hs, -⟩ := (Option.any_eq_true _ _).mp hcollects
  have hstands := h.stands ((threads_floor t).trans hs)
  rw [Serial.legOf_self] at hstands
  cases hstands with
  | @inside front rest r leg hfront hrest => exact ⟨front, rest, r, leg, rfl, hfront, hrest, hs⟩

omit h in
theorem collects_of_course (hfront : Course e n front r leg)
    (hrest : rest.all (Task.isOuter e) = true)
    (hs : w.stackOf t = some ⟨front ++ .unlockCollector e :: .checkpoint e :: rest, r⟩) :
    w.collects e t = true := by
  rw [collects, hs]
  exact (Stands.inside hfront hrest).collects

theorem ends_of_collects (hcollects : w.collects e t = true)
    (hm : m ≠ .step t) : (w.taken m).elim [] (Stack.ends e) = [] := by
  cases m with
  | step u =>
    have hu : u ≠ t := fun hu => hm (by rw [hu])
    rw [taken]
    split
    · cases hs : w.stackOf u with
      | none => rfl
      | some s =>
        obtain ⟨leg, rfl⟩ := (collects_iff h).mp hcollects
        have hstands := h.stands ((threads_floor u).trans hs)
        rw [Serial.legOf_of_ne hu] at hstands
        exact hstands.ends_of_none
    · rfl
  | _ => rfl

theorem collects_move (hcollects : w.collects e t = true)
    (hends : (w.taken m).elim [] (Stack.ends e) = []) : (w.move m).collects e t = true := by
  obtain ⟨front, rest, r, leg, rfl, hfront, hrest, hs⟩ := exists_course h hcollects
  obtain ⟨x, hx⟩ := exists_engine h
  have hsame : (w.move m).stackOf t = some ⟨front ++ .unlockCollector e :: .checkpoint e :: rest,
        r⟩ → (w.move m).collects e t = true := fun hs' => collects_of_course hfront hrest hs'
  cases front with
  | nil =>
    cases continues_move hs (fun _ => Task.noConfusion) m with
    | rests _ hs' => exact hsame hs'
    | steps hm hstep =>
      subst hm
      rw [taken_of_some hstep, hs] at hends
      simp [Stack.ends, Task.ends] at hends
  | cons task front =>
    cases continues_move hs hfront.ne_perform m with
    | rests _ hs' => exact hsame hs'
    | steps hm hstep hproduces hs' =>
      have hcycles : x.collector.cycles = (reports ends).length + leg.cycles :=
        congrArg Collector.cycles (h.shows (Serial.exists_board hx))
      obtain ⟨leg', hcourse, -⟩ := hfront.step hx hcycles hproduces
      refine collects_of_course hcourse hrest (hs'.trans ?_)
      rw [List.append_assoc]
      rfl

omit h

/-- Whoever has the lock keeps it until it leaves the collection, and nobody leaves one
meanwhile. -/
theorem collects_after (s : EngineSpec) (label : String) (before more : List Move)
    (hcollects : ((start s label).after before).collects e t = true)
    (hlasts : ∀ past, past ++ [.step t] <+: more →
      (((start s label).after (before ++ past)).taken (.step t)).elim [] (Stack.ends e) = []) :
    ((start s label).after (before ++ more)).collects e t = true ∧
    (start s label).endings e (before ++ more) = (start s label).endings e before := by
  induction more using List.reverseRecOn with
  | nil => exact ⟨by rwa [List.append_nil], by rw [List.append_nil]⟩
  | append_singleton more m ih =>
    obtain ⟨hkeeps, hsame⟩ := ih fun past hpast => hlasts past (hpast.trans (List.prefix_append ..))
    obtain ⟨holder, h⟩ := serial_after s label (before ++ more) e
    have hends :
        (((start s label).after (before ++ more)).taken m).elim [] (Stack.ends e) = [] := by
      by_cases hm : m = .step t
      · subst hm
        exact hlasts more (List.prefix_refl _)
      · exact ends_of_collects h hkeeps hm
    rw [← List.append_assoc, after_append, endings_snoc, hends, List.append_nil]
    exact ⟨collects_move h hkeeps hends, hsame⟩

end Locks

end World

end ManagedHeap
