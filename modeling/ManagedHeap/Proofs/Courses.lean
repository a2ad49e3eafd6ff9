import ManagedHeap.Proofs.Suspensions

/-!
# The course of a collection

**Input.**  The stack of a thread, and an engine that it collects or will collect.

**Algorithm.**  A collection takes the lock of the collector inside a region, tells agents that it
begins, stops the world, pauses, lets the world go, delivers, counts itself, tells agents that it is
over, and gives the lock back.  If the world cannot be stopped in time it gives the lock back at
once.  Everything that it does stands on the stack of its thread above the release of the lock.

**Results.**  `Course` says what stands there at each place, and what the collector shows meanwhile;
`Course.step`: a step leads from one place to the next.  `Task.Produces.outer`: whatever does not
belong to a collection leaves the collector alone.
-/

namespace ManagedHeap

variable {e k : Nat}

open World (collectTasks)

section Kinds

def Notice.isCycle : Notice → Bool
  | .gcStarted _ | .gcFinished .. => true
  | _ => false

namespace Task

/-- Whether a task is part of a collection of an engine. -/
def isInner (e : Nat) : Task → Bool
  | .blocking _ (.lockCollector k) | .lockCollector k | .unlockCollector k => k == e
  | .beginCycle k _ | .setPhase k _ | .pause k .. | .enqueuePending k .. => k == e
  | .schedule k .. | .enrol k .. | .send k .. | .finishCycle k _ => k == e
  | .dispatch k n | .deliver k n _ => k == e && n.isCycle
  | _ => false

/-- Whether a task has nothing to do with a collection of an engine. -/
def isOuter (e : Nat) (task : Task) : Bool := !task.isInner e

/-- Whether a task is done on the way, in a collection or elsewhere, and leaves only such tasks. -/
def isPassing : Task → Bool
  | .registry _ (.leaveBlocking _ .pause) | .registry _ (.parked _ .pause)
  | .registry _ .releaseWorld => true
  | .endRegion | .delivered _ | .discardJobs .. | .dropJobs _ | .dropRoot _ | .retire ..
  | .announce _ => true
  | task => task.isSide

/-- The engine that a task will collect, if it does not look whether it is there. -/
def target? : Task → Option Nat
  | .collect k _ | .retry k .. => some k
  | _ => none

/-- The report that a task carries to the end of a collection. -/
def report? (e : Nat) : Task → Option Report
  | .enqueuePending k _ _ rp | .schedule k _ rp | .enrol k _ rp | .send k _ rp
  | .finishCycle k rp =>
    if k = e then some rp else none
  | _ => none

variable {task : Task} {e : Nat}

theorem isOuter_of_isSide (h : task.isSide = true) : task.isOuter e = true := by
  cases task <;> first | rfl | cases h

theorem isOuter_of_isProgram (h : task.isProgram = true) : task.isOuter e = true := by
  cases task <;> first | rfl | cases h

theorem isOuter_of_isPassing (h : task.isPassing = true) : task.isOuter e = true := by
  cases task <;> first | rfl | cases h

theorem isOuter_of_isFirst (h : task.isFirst = true) : task.isOuter e = true := by
  cases task with
  | blocking hold inner => cases inner <;> first | rfl | cases h
  | _ => first | rfl | cases h

theorem not_isProgram_of_isPassing (h : task.isPassing = true) : task.isProgram = false := by
  cases task <;> first | rfl | cases h

theorem not_isAllocation_of_isPassing (h : task.isPassing = true) : task.isAllocation = false := by
  cases task <;> first | rfl | cases h

end Task

end Kinds

/-- Whether a change leaves the collector of an engine alone. -/
def SparesCollector (e : Nat) (c : Notch) : Prop :=
  ∀ g, c = some (e, g) → ∀ b : Board, (g b).collector = b.collector

theorem sparesCollector_none : SparesCollector e none := nofun

theorem sparesCollector_of_board (h : ∀ b, (g b).collector = b.collector) :
    SparesCollector e (some (k, g)) := fun _ heq => by cases heq; exact h

theorem sparesCollector_of_ne (h : (k == e) = false) :
    SparesCollector e (some (k, g)) := fun _ heq => by cases heq; simp at h

namespace Task

variable {task : Task} {engines : Array Runtime} {t e : Nat} {r : Reply} {rest tasks : List Task}
  {a : Option Reply} {c : Notch}

/-- What a task that does not belong to a collection of an engine leaves: such tasks, or a
collection. -/
inductive Leaves (e size : Nat) : List Task → Prop
  | outer {tasks : List Task} (h : tasks.all (isOuter e) = true) : Leaves e size tasks
  | collects {reason : Reason} {more : List Task} (he : e < size)
      (hmore : more.all (isOuter e) = true) : Leaves e size (collectTasks e reason ++ more)

theorem leaves_collectTasks (hk : k < engines.size) (hl : l.all (isOuter e) = true) :
    Leaves e engines.size (collectTasks k reason ++ l) := by
  by_cases h : k = e
  · subst h
    exact .collects hk hl
  · refine .outer ?_
    rw [List.all_append, hl]
    simp [collectTasks, isOuter, isInner, h]

theorem isOuter_of_blocking {hold : Hold} {inner : Task}
    (hd : (Task.blocking hold inner).Defers rest)
    (h : (Task.blocking hold inner).isOuter e = true) : inner.isOuter e = true := by
  cases hold with
  | any => cases inner <;> first | rfl | cases hd
  | pause =>
    obtain ⟨k, reason, more, rfl, -⟩ := hd
    exact h

/-- **Whatever does not belong to a collection leaves the collector alone.** -/
theorem Produces.outer (h : task.Produces engines t r tasks a c) (hd : task.Defers rest)
    (htarget : ∀ k, task.target? = some k → k < engines.size) (houter : task.isOuter e = true) :
    Leaves e engines.size tasks ∧ SparesCollector e c := by
  have hlt : ∀ {k x}, engines[k]? = some x → k < engines.size :=
    fun hx => (Array.getElem?_eq_some_iff.mp hx).1
  cases h with
  | aside _ htasks => exact ⟨.outer (World.all_imp isOuter_of_isSide htasks), sparesCollector_none⟩
  | proceeds _ htasks =>
    exact ⟨.outer (World.all_imp isOuter_of_isProgram htasks), sparesCollector_none⟩
  | @operates k op _ x expired registry p hx hstep =>
    refine ⟨.outer ?_, sparesCollector_none⟩
    cases p <;> rfl
  | @enters hold _ k id inner =>
    refine ⟨.outer ?_, sparesCollector_none⟩
    rw [List.all_cons, List.all_cons, isOuter_of_blocking hd houter]
    rfl
  | @nests hold _ inner =>
    exact ⟨.outer (by rw [List.all_cons, isOuter_of_blocking hd houter]; rfl), sparesCollector_none⟩
  | suspends | resumes | panics =>
    exact ⟨.outer (by simp [isOuter, isInner, Notice.isCycle]), sparesCollector_none⟩
  | serves | drains =>
    exact ⟨.outer (by simp [isOuter, isInner]), sparesCollector_of_board fun _ => rfl⟩
  | collects => exact ⟨leaves_collectTasks (htarget _ rfl) rfl, sparesCollector_none⟩
  | collectsOpen hx => exact ⟨leaves_collectTasks (hlt hx) rfl, sparesCollector_none⟩
  | collectsFirst hx | stopsAfter hx =>
    exact ⟨leaves_collectTasks (hlt hx) rfl, sparesCollector_none⟩
  | collectsAgain => exact ⟨leaves_collectTasks (htarget _ rfl) rfl, sparesCollector_none⟩
  | locks | unlocks | setsPhase | pauses | givesUp | refuses | enrols | sends | finishes =>
    have hne := by simpa [isOuter, isInner] using houter
    exact ⟨.outer (by simp [isOuter, isInner, hne]), sparesCollector_of_ne (by simpa using hne)⟩
  | _ =>
    first
    | exact ⟨.outer rfl, sparesCollector_none⟩
    | exact ⟨.outer rfl, sparesCollector_of_board fun _ => rfl⟩
    | exact ⟨.outer (by simpa [isOuter, isInner, Notice.isCycle] using houter),
          sparesCollector_none⟩

theorem isPassing_of_isSide (h : task.isSide = true) : task.isPassing = true := by
  cases task <;> first | rfl | cases h

theorem Produces.passing (h : task.Produces engines t r tasks a c) (htask : task.isPassing = true) :
    tasks.all isPassing = true ∧ ∀ e, SparesCollector e c := by
  cases h with
  | aside _ htasks =>
    exact ⟨World.all_imp isPassing_of_isSide htasks, fun _ => sparesCollector_none⟩
  | proceeds htask' =>
    rw [not_isProgram_of_isPassing htask] at htask'
    cases htask'
  | operates hx hstep =>
    refine ⟨?_, fun _ => sparesCollector_none⟩
    cases Registry.section_of_step hstep with
    | @stays _ hold | @sleepsOn _ hold =>
      cases hold with
      | any => cases htask
      | pause => rfl
    | releases | leaves | goesOn => rfl
    | misses hop => rcases hop with rfl | rfl <;> cases htask
    | _ => cases htask
  | passes htask' | polls htask' => rcases htask' with rfl | ⟨_, rfl⟩ <;> cases htask
  | refusesObject htask' | stores htask' =>
    rw [not_isAllocation_of_isPassing htask] at htask'
    cases htask'
  | strays | leaves | dropsRoot | discards | drops | dropped =>
    exact ⟨rfl, fun _ => sparesCollector_none⟩
  | countsDelivery | discarded | retires | announces =>
    exact ⟨rfl, fun _ => sparesCollector_of_board fun _ => rfl⟩
  | _ => cases htask

end Task

/-- Whoever waits for the world to stand still gives up because others came too late. -/
theorem Registry.eq_lateness_of_step {reg reg' : Registry}
    {thread : Nat} {expired : Bool} {i : Option ThreadId} {err : Error}
    (h : reg.step thread expired (.awaitStops i) = some (reg', .answered (.failed err))) :
    err = reg.lateness := by
  simp only [Registry.step] at h
  (repeat' split at h) <;> cases h
  rfl

section Courses

/-- How far a collection has come, as everybody sees it. -/
structure Leg where
  phase : Phase
  /-- Pauses that it has made. -/
  ticks : Nat
  /-- Cycles that it has counted. -/
  cycles : Nat
  /-- What it has told agents. -/
  told : List Notice

/-- What the collector shows meanwhile, if `n` cycles were counted before. -/
def Leg.collector (leg : Leg) (t n : Nat) : Collector where
  phase := leg.phase
  cycles := n + leg.cycles
  owner := some t

def Report.notice (rp : Report) : Notice :=
  .gcFinished rp.cycle rp.reclaimedObjects rp.reclaimedBytes

/-- What stands on the stack of a thread above the release of the lock of a collector, if `n` cycles
were counted before, and how far the collection has come. -/
inductive Course (e n : Nat) : List Task → Reply → Leg → Prop
  | passes (htask : task.isPassing = true)
      (h : ∀ r, Course e n front r leg) : Course e n (task :: front) r leg
  | begins : Course e n [.beginCycle e reason] r ⟨.idle, 0, 0, []⟩
  | announces : Course e n [.dispatch e (.gcStarted (n + 1)), .setPhase e .stopping,
        .registry e (.stopWorld i), .pause e (n + 1) reason] r ⟨.idle, 0, 0, []⟩
  | tells : Course e n [.deliver e (.gcStarted (n + 1)) recipients, .setPhase e .stopping,
        .registry e (.stopWorld i), .pause e (n + 1) reason] r ⟨.idle, 0, 0, [.gcStarted (n + 1)]⟩
  | readies :
      Course e n [.setPhase e .stopping, .registry e (.stopWorld i), .pause e (n + 1) reason] r
        ⟨.idle, 0, 0, [.gcStarted (n + 1)]⟩
  | stops : Course e n [.registry e (.stopWorld i), .pause e (n + 1) reason] r ⟨.stopping, 0, 0,
        [.gcStarted (n + 1)]⟩
  | awaits : Course e n [.registry e (.awaitStops i), .pause e (n + 1) reason] r ⟨.stopping, 0, 0,
        [.gcStarted (n + 1)]⟩
  | stopped {k : Nat} :
      Course e n [.pause e (n + 1) reason] (.count k) ⟨.stopping, 0, 0, [.gcStarted (n + 1)]⟩
  /-- The world could not be stopped in time. -/
  | late : Course e n [.pause e (n + 1) reason] (.failed (.timeout text)) ⟨.stopping, 0, 0,
        [.gcStarted (n + 1)]⟩
  | sweeps (hrp : rp.cycle = n + 1) : Course e n [.setPhase e .enqueuing,
        .enqueuePending e pending jobs rp] r ⟨.sweeping, 1, 0, [.gcStarted (n + 1)]⟩
  | delivers (htask : task.report? e = some rp) (hrp : rp.cycle = n + 1) :
      Course e n [task] r ⟨.enqueuing, 1, 0, [.gcStarted (n + 1)]⟩
  | finishes (hrp : rp.cycle = n + 1) :
      Course e n [.dispatch e rp.notice, .setPhase e .idle, .reply (.report rp)] r
        ⟨.enqueuing, 1, 1, [.gcStarted (n + 1)]⟩
  | tellsEnd (hrp : rp.cycle = n + 1) :
      Course e n [.deliver e rp.notice recipients, .setPhase e .idle, .reply (.report rp)] r
        ⟨.enqueuing, 1, 1, [.gcStarted (n + 1), rp.notice]⟩
  | closes (hrp : rp.cycle = n + 1) : Course e n [.setPhase e .idle,
        .reply (.report rp)] r ⟨.enqueuing, 1, 1, [.gcStarted (n + 1), rp.notice]⟩
  | reports (hrp : rp.cycle = n + 1) :
      Course e n [.reply (.report rp)] r ⟨.idle, 1, 1, [.gcStarted (n + 1), rp.notice]⟩
  | succeeded (hrp : rp.cycle = n + 1) :
      Course e n [] (.report rp) ⟨.idle, 1, 1, [.gcStarted (n + 1), rp.notice]⟩
  | failed : Course e n [] (.failed (.timeout text)) ⟨.idle, 0, 0, [.gcStarted (n + 1)]⟩

/-- What a step begins to tell agents about collections. -/
def Task.announces (e : Nat) : Task → List Notice
  | .dispatch k n => if k = e ∧ n.isCycle then [n] else []
  | _ => []

def Task.ticks (e : Nat) : Task → Reply → Nat
  | .pause k .., .count _ => if k = e then 1 else 0
  | _, _ => 0

/-- A step of a collection, from one place to the next. -/
structure Leg.Advances (t e n : Nat) (task : Task) (r : Reply) (c : Notch) (leg leg' : Leg) :
    Prop where
  told : leg'.told = leg.told ++ task.announces e
  ticks : leg'.ticks = leg.ticks + task.ticks e r
  collector : ∀ b : Board, b.collector = leg.collector t n →
    (c.on e b).collector = leg'.collector t n

variable {e n t : Nat} {task : Task} {front tasks : List Task} {r : Reply} {a : Option Reply}
  {c : Notch} {leg : Leg} {engines : Array Runtime} {x : Runtime}

theorem Course.append_passing (h : ∀ r, Course e n front r leg)
    (htasks : tasks.all Task.isPassing = true) (r : Reply) : Course e n (tasks ++ front) r leg := by
  induction tasks generalizing r with
  | nil => exact h r
  | cons task tasks ih =>
    rw [List.all_cons, Bool.and_eq_true] at htasks
    exact .passes htasks.1 (ih htasks.2)

theorem announces_of_isPassing (h : task.isPassing = true) : task.announces e = [] := by
  cases task <;> first | rfl | cases h

theorem ticks_of_isPassing (h : task.isPassing = true) : task.ticks e r = 0 := by
  cases task <;> first | rfl | cases h

theorem collector_of_spares (hc : SparesCollector e c) : (c.on e b).collector = b.collector :=
  Notch.on_eq hc b

theorem Leg.advances_of_spares (ha : task.announces e = []) (ht : task.ticks e r = 0)
    (hc : SparesCollector e c) : leg.Advances t e n task r c leg where
  told := by rw [ha, List.append_nil]
  ticks := by rw [ht]; rfl
  collector b hb := (collector_of_spares hc).trans hb

theorem Leg.Advances.stays (ha : task.announces e = []) (ht : task.ticks e r = 0) :
    leg.Advances t e n task r none leg :=
  advances_of_spares ha ht sparesCollector_none

theorem collector_setPhase (hb : b.collector = leg.collector t n) :
    (Option.elim (some (e, Board.setPhase p)) b fun c => if c.1 = e then c.2 b else b).collector =
      Leg.collector { leg with phase := p } t n := by
  show (if e = e then b.setPhase p else b).collector = _
  rw [if_pos rfl]
  unfold Board.setPhase
  rw [hb]
  rfl

theorem eq_of_report? (h : task.report? e = some rp) :
    (∃ pending jobs, task = .enqueuePending e pending jobs rp) ∨
    (∃ jobs, task = .schedule e jobs rp) ∨ (∃ jobs, task = .enrol e jobs rp) ∨
    (∃ jobs, task = .send e jobs rp) ∨ task = .finishCycle e rp := by
  cases task with
  | enqueuePending | schedule | enrol | send | finishCycle =>
    rw [Task.report?] at h
    split at h
    · next hk =>
        cases hk
        cases h
        simp
    · cases h
  | _ => cases h

theorem Course.deliver_step (htask : task.report? e = some rp) (hrp : rp.cycle = n + 1)
    (hx : engines[e]? = some x) (hproduces : task.Produces engines t r tasks a c) :
    ∃ leg', Course e n (tasks ++ []) (a.getD r) leg' ∧
      Leg.Advances t e n task r c ⟨.enqueuing, 1, 0, [.gcStarted (n + 1)]⟩ leg' := by
  have stays : ∀ {task}, task.announces e = [] → task.ticks e r = 0 → ∀ {c}, SparesCollector e c →
      Leg.Advances t e n task r c ⟨.enqueuing, 1, 0, [.gcStarted (n + 1)]⟩ ⟨.enqueuing, 1, 0,
        [.gcStarted (n + 1)]⟩ := fun ha ht _ hc => Leg.advances_of_spares ha ht hc
  rcases eq_of_report? htask with ⟨pending, jobs, rfl⟩ | ⟨jobs, rfl⟩ | ⟨jobs, rfl⟩ | ⟨jobs, rfl⟩ |
    rfl
  · cases hproduces with
    | leavesPending | claimed =>
      exact ⟨_, .delivers (if_pos rfl) hrp, stays rfl rfl sparesCollector_none⟩
    | claims =>
      exact ⟨_, .passes rfl fun _ => .delivers (if_pos rfl) hrp, stays rfl rfl sparesCollector_none⟩
    | _ => first | contradiction | simp_all
  · cases hproduces with
    | schedulesNothing | accepts =>
      exact ⟨_, .delivers (if_pos rfl) hrp, stays rfl rfl sparesCollector_none⟩
    | refuses =>
      exact ⟨_, .passes rfl fun _ => .delivers (if_pos rfl) hrp,
        stays rfl rfl (sparesCollector_of_board fun _ => rfl)⟩
    | _ => first | contradiction | grind [Task.engine?]
  · cases hproduces with
    | enrols =>
      exact ⟨_, .delivers (if_pos rfl) hrp, stays rfl rfl (sparesCollector_of_board fun _ => rfl)⟩
    | _ => first | contradiction | simp_all
  · cases hproduces with
    | sends =>
      exact ⟨_, .delivers (if_pos rfl) hrp, stays rfl rfl (sparesCollector_of_board fun _ => rfl)⟩
    | bounces =>
      exact ⟨_, .passes rfl fun _ => .delivers (if_pos rfl) hrp, stays rfl rfl sparesCollector_none⟩
    | _ => first | contradiction | simp_all
  · cases hproduces with
    | finishes =>
      refine ⟨⟨.enqueuing, 1, 1, [.gcStarted (n + 1)]⟩, .finishes hrp, rfl, rfl, fun b hb => ?_⟩
      show (if e = e then b.finish rp else b).collector = _
      rw [if_pos rfl]
      unfold Board.finish
      rw [hrp, hb]
      rfl
    | _ => first | contradiction | grind [Task.engine?]

/-- **A step leads a collection from one place to the next.** -/
theorem Course.step (h : Course e n (task :: front) r leg) (hx : engines[e]? = some x)
    (hcycles : x.collector.cycles = n + leg.cycles)
    (hproduces : task.Produces engines t r tasks a c) :
    ∃ leg', Course e n (tasks ++ front) (a.getD r) leg' ∧ leg.Advances t e n task r c leg' := by
  have hlt := (Array.getElem?_eq_some_iff.mp hx).1
  cases h with
  | passes htask h =>
    obtain ⟨htasks, hspares⟩ := hproduces.passing htask
    exact ⟨leg, .append_passing h htasks _, Leg.advances_of_spares (announces_of_isPassing htask)
      (ticks_of_isPassing htask) (hspares e)⟩
  | begins =>
    obtain ⟨i, rfl, rfl, rfl⟩ := produces_beginCycle hproduces hx
    rw [hcycles]
    exact ⟨_, .announces, .stays rfl rfl⟩
  | announces =>
    obtain ⟨rfl, rfl, rfl⟩ := produces_dispatch hproduces hx
    exact ⟨_, .tells, by simp [Task.announces, Notice.isCycle], rfl, fun _ hb => hb⟩
  | tells =>
    obtain ⟨rfl, rfl, ⟨-, rfl⟩ | ⟨_, others, gates, -, hgates, rfl⟩⟩ := produces_deliver hproduces
    · exact ⟨_, .readies, .stays rfl rfl⟩
    · rw [List.append_cons gates, List.append_assoc]
      refine ⟨_, .append_passing (fun _ => .tells) ?_ _, .stays rfl rfl⟩
      rw [List.all_append, World.all_imp Task.isPassing_of_isSide hgates]
      rfl
  | readies =>
    obtain ⟨rfl, rfl, rfl⟩ := produces_setPhase hproduces
    exact ⟨_, .stops, rfl, rfl, fun _ => collector_setPhase⟩
  | stops =>
    obtain ⟨y, expired, registry, p, -, hstep, rfl, rfl, rfl⟩ := produces_registry hproduces hlt
    cases Registry.section_of_step hstep with
    | misses hop => simp at hop
    | waits => exact ⟨_, .stops, .stays rfl rfl⟩
    | stops => exact ⟨_, .stopped, .stays rfl rfl⟩
    | asks => exact ⟨_, .awaits, .stays rfl rfl⟩
  | awaits =>
    obtain ⟨y, expired, registry, p, -, hstep, rfl, rfl, rfl⟩ := produces_registry hproduces hlt
    cases Registry.section_of_step hstep with
    | misses hop => simp at hop
    | arrives => exact ⟨_, .stopped, .stays rfl rfl⟩
    | givesUp =>
      cases Registry.eq_lateness_of_step hstep
      exact ⟨_, .late, .stays rfl rfl⟩
    | waitsOn => exact ⟨_, .awaits, .stays rfl rfl⟩
  | stopped =>
    cases hproduces with
    | givesUp hr => exact (hr _ rfl).elim
    | pauses =>
      refine ⟨⟨.sweeping, 1, 0, [.gcStarted (n + 1)]⟩,
        .passes rfl fun _ => .passes rfl fun _ => .sweeps rfl, ?_, ?_, fun _ => collector_setPhase⟩
      · simp [Task.announces]
      · simp [Task.ticks]
    | _ => first | contradiction | grind [Task.engine?]
  | late =>
    cases hproduces with
    | givesUp => exact ⟨_, .failed, rfl, rfl, fun _ => collector_setPhase⟩
    | _ => first | contradiction | grind [Task.engine?]
  | sweeps hrp =>
    obtain ⟨rfl, rfl, rfl⟩ := produces_setPhase hproduces
    exact ⟨_, .delivers (by simp [Task.report?]) hrp, rfl, rfl, fun _ => collector_setPhase⟩
  | delivers htask hrp => exact deliver_step htask hrp hx hproduces
  | finishes hrp =>
    obtain ⟨rfl, rfl, rfl⟩ := produces_dispatch hproduces hx
    exact ⟨_, .tellsEnd hrp, by simp [Task.announces, Notice.isCycle, Report.notice], rfl,
      fun _ hb => hb⟩
  | tellsEnd hrp =>
    obtain ⟨rfl, rfl, ⟨-, rfl⟩ | ⟨_, others, gates, -, hgates, rfl⟩⟩ := produces_deliver hproduces
    · exact ⟨_, .closes hrp, .stays rfl rfl⟩
    · rw [List.append_cons gates, List.append_assoc]
      refine ⟨_, .append_passing (fun _ => .tellsEnd hrp) ?_ _, .stays rfl rfl⟩
      rw [List.all_append, World.all_imp Task.isPassing_of_isSide hgates]
      rfl
  | closes hrp =>
    obtain ⟨rfl, rfl, rfl⟩ := produces_setPhase hproduces
    exact ⟨_, .reports hrp, by simp [Task.announces], rfl, fun _ => collector_setPhase⟩
  | reports hrp =>
    obtain ⟨rfl, rfl, rfl⟩ := produces_reply hproduces
    exact ⟨_, .succeeded hrp, .stays rfl rfl⟩

/-- What stands on the stack of a thread above the release of the lock of a collector while it waits
for it. -/
inductive Queues (e : Nat) : List Task → Prop
  | asks : Queues e [.blocking .pause (.lockCollector e), .beginCycle e reason]
  | enters {k : Nat} {id : ThreadId} : Queues e [.registry k (.enterBlocking id), .lockCollector e,
        .registry k (.leaveBlocking id .pause), .endRegion, .beginCycle e reason]
  | waits (hl : l.all Task.isPassing = true) :
      Queues e (.lockCollector e :: (l ++ [.beginCycle e reason]))

/-- What a step does to a thread that waits for the lock of a collector. -/
inductive Queues.Moves (t e : Nat) (x : Runtime) (tasks : List Task) (c : Notch) : Prop
  | goesOn (h : Queues e tasks) (hc : c = none) : Moves t e x tasks c
  | enters (hfree : x.collector.owner = none) (h : ∀ n r, Course e n tasks r ⟨.idle, 0, 0, []⟩)
      (hc : c = some (e, .lock t)) : Moves t e x tasks c

theorem Queues.step (h : Queues e (task :: front)) (hx : engines[e]? = some x)
    (hproduces : task.Produces engines t r tasks a c) : Moves t e x (tasks ++ front) c := by
  cases h with
  | asks =>
    cases hproduces with
    | enters => exact .goesOn .enters rfl
    | nests => exact .goesOn (.waits rfl) rfl
    | _ => first | contradiction | simp_all
  | enters =>
    have hwaits : ∀ {k id reason}, Queues e [.lockCollector e,
        .registry k (.leaveBlocking id .pause), .endRegion, .beginCycle e reason] :=
      .waits (l := [.registry _ (.leaveBlocking _ .pause), .endRegion]) rfl
    cases hproduces with
    | strays => exact .goesOn hwaits rfl
    | operates hy hstep =>
      cases Registry.section_of_step hstep with
      | misses hop => simp at hop
      | blocks => exact .goesOn hwaits rfl
    | _ => first | contradiction | simp_all
  | waits hback =>
    obtain ⟨hfree, rfl, rfl, rfl⟩ := produces_lockCollector hproduces hx
    exact .enters hfree (fun n r => .append_passing (fun _ => .begins) hback r) rfl

theorem Queues.announces (h : Queues e (task :: front)) : task.announces e = [] := by
  cases h <;> rfl

theorem Queues.ticks (h : Queues e (task :: front)) : task.ticks e r = 0 := by
  cases h <;> rfl

/-- Where a thread stands with regard to the collector of an engine: whether it collects, and how
far it has come. -/
inductive Stands (e n : Nat) : Stack → Option Leg → Prop
  | outside {s : Stack} (h : s.tasks.all (Task.isOuter e) = true) : Stands e n s none
  | waits {front rest : List Task} {r : Reply} (hfront : Queues e front)
      (hrest : rest.all (Task.isOuter e) = true) :
      Stands e n ⟨front ++ .unlockCollector e :: .checkpoint e :: rest, r⟩ none
  | inside {front rest : List Task} {r : Reply} {leg : Leg} (hfront : Course e n front r leg)
      (hrest : rest.all (Task.isOuter e) = true) :
      Stands e n ⟨front ++ .unlockCollector e :: .checkpoint e :: rest, r⟩ (some leg)

theorem Stands.of_none (h : Stands e n s none) : Stands e m s none := by
  cases h with
  | outside h => exact .outside h
  | waits hfront hrest => exact .waits hfront hrest

end Courses

end ManagedHeap
