import ManagedHeap.Proofs.Instructions

/-!
# Runs

**Input.**  A world that was begun, and moves: steps of threads in any order, clocks that run out at
any time, and instructions for threads that have nothing to do.

**Algorithm.**  A step takes a task, performs it as a section and puts the value of its call back.
A run is a sequence of moves; its history lists the deeds of its steps.

**Results.**  A run is a sequence of acts on the core of its world, with its history
(`World.acts_after`).  What a scheduler does with a program is a run (`World.exists_after_obey`).
-/

namespace ManagedHeap

theorem Finish.nothing_of_before (f : Finish) {n m : Need} (h : f.role.before n = some m) :
    n = .nothing := by
  cases f with
  | object bind | entry bind | foreignObject size bind => exact (Role.before_takes h).1
  | _ => exact (Role.before_plain h).1

/-- Something that happens to a world. -/
inductive Move where
  /-- A thread takes a step, if it can. -/
  | step (thread : Nat)
  /-- The clock of a thread runs out. -/
  | expire (thread : Nat)
  /-- Finalizers have to wait before their first action, or no longer. -/
  | hold (held : Bool)
  /-- There is a thread of this name from now on. -/
  | call (thread : String)
  /-- A thread that has nothing to do is given an instruction. -/
  | instruct (thread number : Nat) (timed : Bool) (i : Instruction)
  /-- The output is taken. -/
  | takeOutput
  /-- A thread that sleeps on a queue becomes the one that the next entry wakes. -/
  | favour (queue thread : Nat)

namespace World

variable {w w' : World} {t e : Nat}

section Steps

variable {task : Task} {x : Thread}

theorem replyOf_setRegion (b : Bool) : (w.setRegion t b).replyOf t = w.replyOf t := by
  unfold replyOf setRegion modifyThread
  rw [Array.getElem?_modify, if_pos rfl]
  cases w.threads[t]? <;> rfl

/-- Every task is a section that starts with what the task owns and with the value that it takes
over. -/
theorem performs_runTask {n m : Need} (hc : (w.openCore t).Regular) (hn : w.Needs t n)
    (hr : task.role.before n = some m) (hf : task.Fits (w.openCore t))
    (h : w.runTask t task = some w') : Performs (w.licence task) t w
    (↑task.assets + ↑(m.value (w.replyOf t))) (w.deedsOf t task) w' := by
  have hd : w.names.bindings.Distinct := hc.distinct
  have plain : ∀ {p deeds}, task.role = .plain →
      (w.Needs t .nothing → Performs (w.licence task) t w p deeds w') →
      Performs (w.licence task) t w (p + ↑(m.value (w.replyOf t))) deeds w' := by
    intro p deeds hrole hperforms
    rw [hrole] at hr
    obtain ⟨rfl, rfl⟩ := Role.before_plain hr
    simpa using hperforms hn
  have gives : ∀ {k p deeds}, task.role = .gives k →
      (w.Needs t k → Performs (w.licence task) t w p deeds w') →
      Performs (w.licence task) t w (p + ↑(m.value (w.replyOf t))) deeds w' := by
    intro k p deeds hrole hperforms
    rw [hrole] at hr
    obtain ⟨rfl, rfl⟩ := Role.before_gives hr
    simpa using hperforms hn
  have takes : ∀ {k p deeds}, task.role = .takes k →
      (w.Needs t .nothing → Performs (w.licence task) t w (p + ↑(k.value (w.replyOf t))) deeds w') →
        Performs (w.licence task) t w (p + ↑(m.value (w.replyOf t))) deeds w' := by
    intro k p deeds hrole hperforms
    rw [hrole] at hr
    obtain ⟨rfl, rfl⟩ := Role.before_takes hr
    exact hperforms hn
  have neutral : ∀ {p : Multiset Asset} {deeds : List Deed}, task.role = .neutral →
      Performs (w.licence task) t w (p + ↑(n.value (w.replyOf t))) deeds w' →
      Performs (w.licence task) t w (p + ↑(m.value (w.replyOf t))) deeds w' := by
    intro p deeds hrole hperforms
    rw [hrole] at hr
    cases hr
    exact hperforms
  have whole : ∀ {p : Multiset Asset} {deeds : List Deed},
      Performs (w.licence task) t w p deeds w' →
      Performs (w.licence task) t w (↑([] : List Asset) + p) deeds w' := by
    intro p deeds hperforms
    simpa using hperforms
  have idle : task.role = .plain → task.assets = [] → w.deedsOf t task = [] →
      (w.Needs t .nothing → Performs (w.licence task) t w 0 [] w') → Performs (w.licence task) t w
      (↑task.assets + ↑(m.value (w.replyOf t))) (w.deedsOf t task) w' := by
    intro hrole hassets hdeeds hperforms
    rw [hassets, hdeeds]
    exact plain hrole hperforms
  have hthread : ∀ {v : World} {f : Thread → Thread}, (∀ x, (f x).tasks = x.tasks) →
      (v.modifyThread t f).openCore t = v.openCore t := openCore_modifyThread
  have hengine : ∀ {v : World} {e : Nat} {f : Runtime → Runtime},
      (∀ x, (f x).heap = x.heap ∧ (f x).finalization = x.finalization) →
        (v.modifyEngine e f).openCore t = v.openCore t := openCore_modifyEngine_of_same
  have hservice : ∀ {v : World} {e : Nat} {f : Finalization Finalizer → Finalization Finalizer},
      (∀ x, (f x).channel = x.channel) → (v.modifyFinalization e f).openCore t = v.openCore t :=
    openCore_modifyFinalization_of_channel
  cases task with
  | registry e op => exact whole (performs_runOperation hn hr h)
  | wakeQueue q => cases h; exact plain rfl (.quiet (openCore_modifyQueue_of_line fun _ => rfl))
  | checkpoint | adopt | forget | dispatch | deliver | delivered | gate | suspended | selfPoll
  | resumed | repeatSuspend | interrupt | wakeBlocked | reply =>
    refine idle rfl rfl rfl fun hn => ?_
    simp only [runTask, checkpoint, adopt, dispatch, deliver, delivered, passGate, suspended,
      selfPoll, resumed, repeatSuspend, interrupt, wakeBlocked] at h
    (repeat' split at h) <;> cases h <;> simp [hn, hthread, hengine]
  | lockCollector | unlockCollector | beginCycle | setPhase | collect | collectOpen | finishCycle =>
    refine idle rfl rfl rfl fun hn => ?_
    simp only [runTask, lockCollector, unlockCollector, beginCycle, collectOpen, finishCycle] at h
    (repeat' split at h) <;> simp only [Option.some.injEq, reduceCtorEq] at h <;> subst h <;>
      simp [hn, collectTasks]
  | leaveService | announceExit | retire | announce =>
    cases h; exact idle rfl rfl rfl (.quiet (hservice fun _ => rfl))
  | refuseWork e => cases h; exact idle rfl rfl rfl fun hn => .bare (hservice fun _ => rfl) hn rfl
  | concludeJob | countPanic | runFinalization | awaitDrain =>
    refine idle rfl rfl rfl fun hn => ?_
    simp only [runTask, concludeJob, runFinalization, awaitDrain] at h
    (repeat' split at h) <;> cases h <;> simp [hn, hservice]
  | stopEngine | shutdownCollected | awaitExit | stopped | releaseEngine | releaseAgent =>
    refine idle rfl rfl rfl fun hn => ?_
    simp only [runTask, stopEngine, shutdownCollected, awaitExit, stopped, releaseEngine] at h
    (repeat' split at h) <;> cases h <;> simp [hn, hengine, hservice, collectTasks]
  | blocking hold inner =>
    cases h
    cases inner with
    | lockCollector e | awaitDrain e ms => exact plain rfl fun hn => performs_runBlocking hn hf rfl
    | waitOnQueue q ms => exact gives rfl fun hn => performs_runBlocking hn hf rfl
    | _ => exact hf.elim
  | endRegion =>
    cases h; exact neutral rfl (whole (.neutral (openCore_setRegion _) (replyOf_setRegion _) hn))
  | pause e cycle reason => cases h; exact plain rfl performs_pauseWorld
  | dropFinalizers fs => cases h; exact neutral rfl (performs_dropFinalizers hn)
  | enqueuePending e pending jobs r =>
    cases h
    refine plain rfl fun hn => ?_
    rw [show (Task.enqueuePending e pending jobs r).assets =
      pending.map (fun i => Asset.pending ⟨e, i⟩) ++ jobs.map .job from rfl, ← Multiset.coe_add]
    exact performs_enqueuePending hn hf
  | schedule e jobs r => cases h; exact plain rfl fun hn => performs_schedule hn hf
  | enrol e jobs r => cases h; exact plain rfl fun hn => performs_enrol hn
  | send e jobs r => cases h; exact plain rfl fun hn => performs_send hn
  | allocate e r => cases h; exact gives rfl fun hn => performs_allocate hn hf
  | attempt e r => cases h; exact gives rfl fun hn => performs_attempt hn hf
  | retry e r size final => cases h; exact gives rfl fun hn => performs_retry hn
  | clearReferent k => cases h; exact plain rfl fun hn => performs_clearReferent hn
  | claimActive k q => cases h; exact plain rfl fun hn => performs_claimActive hn hf.1 hf.2
  | claimPending k q => cases h; exact plain rfl fun hn => performs_claimPending hn hf
  | pushQueue q k => cases h; exact plain rfl fun hn => performs_pushQueue hn
  | releaseReference k => cases h; exact plain rfl performs_releaseReference
  | pollQueue q => cases h; exact gives rfl performs_pollQueue
  | waitOnQueue q ms =>
    cases h; exact gives rfl fun hn => .pushOnly rfl hn rfl (by simp [Task.Fits]) rfl
  | setBlocker q => cases h; exact neutral rfl (whole (performs_setBlocker hn))
  | awaitEntry q ms => exact gives rfl fun hn => performs_awaitEntry hn h
  | finishRemoval q k => cases h; exact gives rfl performs_finishRemoval
  | serve e => exact plain rfl fun hn => performs_serve hn h
  | drain e runPending => cases h; exact plain rfl fun hn => performs_drain hn
  | closeChannel e => cases h; exact plain rfl fun hn => performs_closeChannel hn
  | runJob e job => exact plain rfl fun hn => performs_runJob hn h
  | body e job actions results => exact plain rfl fun hn => performs_runBody hn hd h
  | bodyResumes e job actions results => cases h; exact plain rfl fun hn => performs_bodyResumes hn
  | keepObject bind => cases h; exact takes rfl fun hn => whole (performs_keepObject hn hd bind)
  | dropHeld roots => cases h; exact neutral rfl (performs_dropHeld hn)
  | finishObject r => cases h; exact plain rfl fun hn => performs_finishObject hn rfl
  | dropRoot r => cases h; exact plain rfl performs_dropRoot
  | discardJobs e jobs count => cases h; exact plain rfl fun hn => performs_discardJobs hn
  | dropJobs jobs => cases h; exact plain rfl fun hn => performs_dropJobs hn
  | claimReceiver e => cases h; exact plain rfl performs_claimReceiver
  | drainUnstarted e => cases h; exact plain rfl fun hn => performs_drainUnstarted hn
  | perform i => cases h; exact plain rfl fun hn => performs_perform hn hc
  | garbage e s index remaining => cases h; exact plain rfl fun hn => performs_garbage hn hf
  | garbageNext e s index remaining =>
    cases h; exact takes rfl fun hn => whole (performs_garbageNext hn hf)
  | chain e size index remaining previous bind =>
    cases h; exact plain rfl fun hn => performs_chain hn hd hf
  | chainNext e size index remaining previous bind =>
    cases h; exact takes rfl fun hn => performs_chainNext hn hf
  | finish f =>
    cases h
    obtain rfl := f.nothing_of_before hr
    exact whole (performs_finish hn hd hr)
  | conclude e f =>
    cases h
    obtain rfl := f.nothing_of_before hr
    exact whole (performs_conclude hn hd hr)

def nextTask (w : World) (t : Nat) : Option Task := (w.threads[t]?).bind (·.tasks.head?)

/-- The object that a move marks as done with its finalizer. -/
def finished? (w : World) : Move → Option Root
  | .step t => (w.nextTask t).bind Task.finished?
  | _ => none

def got? (w : World) : Move → Option Handle
  | .step t => ((w.nextTask t).bind w.asked?).filter fun h => (w.getReferent h).1.isSome
  | _ => none

def licenceOf (w : World) (m : Move) : Licence :=
  ⟨fun r => w.finished? m = some r, fun h => w.got? m = some h⟩

def stepDeeds (w : World) (t : Nat) : List Deed :=
  match w.threads[t]? with
  | none => []
  | some x =>
    match x.tasks with
    | [] => []
    | task :: rest => (w.modifyThread t fun x => { x with tasks := rest }).deedsOf t task

theorem core_modifyThread {f : Thread → Thread} (h : ∀ x, (f x).stack = x.stack) :
    (w.modifyThread t f).core = w.core := by
  unfold core modifyThread
  congr 1
  have hmap : (w.threads.modify t f).map Thread.stack =
      (w.threads.map Thread.stack).modify t fun x => x := map_modify h
  rw [hmap, modify_eq_self fun _ _ => rfl]

/-- A world in which a thread has taken its next task and has the rest before it. -/
abbrev take (w : World) (t : Nat) (rest : List Task) : World :=
  w.modifyThread t fun x => { x with tasks := rest }

theorem threads_take (hx : w.threads[t]? = some x) (rest : List Task) :
    (w.take t rest).threads[t]? = some { x with tasks := rest } := by
  unfold take modifyThread
  rw [Array.getElem?_modify, if_pos rfl, hx]
  rfl

theorem replyOf_take (hx : w.threads[t]? = some x) (rest : List Task) :
    (w.take t rest).replyOf t = x.reply := by
  unfold replyOf
  rw [threads_take hx]

theorem openCore_take (rest : List Task) :
    (w.take t rest).openCore t = w.core.setStack t ⟨rest, .unit⟩ := by
  unfold openCore core take modifyThread Core.mute Core.setStack
  congr 1
  apply Array.ext_getElem?
  intro j
  simp only [Array.getElem?_modify, Array.getElem?_map]
  split
  · cases w.threads[j]? <;> rfl
  · rfl

theorem setStack_openCore (hx : w.threads[t]? = some x) :
    (w.openCore t).setStack t x.stack = w.core := by
  unfold openCore core Core.mute Core.setStack
  congr 1
  rw [modify_modify]
  refine modify_eq_self fun s hs => ?_
  rw [Array.getElem?_map, hx] at hs
  cases hs
  rfl

theorem exists_task_of_step (h : w.step t = some w') : ∃ x task rest after, w.threads[t]? = some x ∧
    x.tasks = task :: rest ∧ (w.take t rest).runTask t task = some after ∧
    w' = after.modifyThread t fun x => { x with expired := false } := by
  unfold step at h
  cases hx : w.threads[t]? with
  | none => simp [hx] at h
  | some x =>
    cases htasks : x.tasks with
    | nil => simp [hx, htasks] at h
    | cons task rest =>
      simp only [hx, htasks, Option.map_eq_some_iff] at h
      obtain ⟨after, hrun, rfl⟩ := h
      exact ⟨x, task, rest, after, rfl, htasks, hrun, rfl⟩

theorem stepDeeds_eq {rest : List Task} (hx : w.threads[t]? = some x)
    (htasks : x.tasks = task :: rest) : w.stepDeeds t = (w.take t rest).deedsOf t task := by
  simp only [stepDeeds, hx, htasks]

theorem acts_step (hc : w.core.Regular) (h : w.step t = some w') :
    Acts (w.licenceOf (.step t)) w.core 0 (w.stepDeeds t) w'.core 0 := by
  obtain ⟨x, task, rest, after, hx, htasks, hrun, rfl⟩ := exists_task_of_step h
  rw [stepDeeds_eq hx htasks]
  have hs : w.core.threads[t]? = some ⟨task :: rest, x.reply⟩ := by
    simp [core, hx, Thread.stack, htasks]
  obtain ⟨m, hm⟩ := Option.isSome_iff_exists.mp (hc.typed t _ hs)
  obtain ⟨n, hn, hbefore⟩ : ∃ n, need rest = some n ∧ task.role.before n = some m :=
    Option.bind_eq_some_iff.mp hm
  -- the task and the value that it takes over are in the hand
  have htake := Acts.take (L := w.licenceOf (.step t)) (p := 0) hs hm
  rw [← openCore_take, add_zero] at htake
  have hneeds : (w.take t rest).Needs t n := by
    unfold Needs Core.needAt
    rw [openCore_take, Core.setStack, Array.getElem?_modify, if_pos rfl, hs]
    exact hn
  have hfits := (hc.fits t _ hs task (by simp)).mono htake.progress.1
  obtain ⟨k, hk, hacts⟩ := performs_runTask (htake.progress.2 hc) hneeds hbefore hfits hrun
  have hnext : w.nextTask t = some task := by simp [nextTask, hx, htasks]
  have hwithin : ((w.take t rest).licence task).Within (w.licenceOf (.step t)) := by
    refine ⟨fun r (hr : task.finished? = some r) => ?_, fun h hh => ?_⟩
    · simpa [licenceOf, finished?, hnext] using hr
    · obtain ⟨hasked, hsome⟩ := hh
      rw [fst_getReferent] at hsome
      have hasked : w.asked? task = some h := hasked
      have hsome : ((w.engines[h.heap]?).bind fun x =>
            (x.heap.getReferent h.position).1).isSome = true := hsome
      rw [← fst_getReferent] at hsome
      simpa [licenceOf, got?, hnext, Option.filter_eq_some_iff] using ⟨hasked, hsome⟩
  replace hacts := hacts.mono hwithin
  rw [replyOf_take hx] at hacts
  obtain ⟨y, hy, hky, hsy⟩ := hk.thread
  have hput := Acts.put (L := w.licenceOf (.step t)) (p := 0) hsy hky y.reply
  have hset : (after.openCore t).setStack t ⟨y.tasks, y.reply⟩ = after.core := setStack_openCore hy
  have hafter : after.replyOf t = y.reply := by simp [replyOf, hy]
  rw [hset, add_zero] at hput
  rw [hafter] at hacts
  have hexpired : (after.modifyThread t fun x => { x with expired := false }).core = after.core :=
    core_modifyThread fun _ => rfl
  rw [hexpired]
  exact (htake.andThen hacts).followedBy hput

end Steps

end World

namespace World

section Moves

/-- A world after a move; a move that cannot be made changes nothing. -/
def move (w : World) : Move → World
  | .step t => (w.step t).getD w
  | .expire t => w.expire t
  | .hold held => { w with bodiesHeld := held }
  | .call name => (w.threadNamed name).2
  | .instruct t number timed i =>
    if w.isBusy t then w
    else w.modifyThread t fun x =>
      { x with tasks := [.perform i], instruction := some number, timed := timed }
  | .takeOutput => w.takeOutput.2
  | .favour q t => w.modifyQueue q (·.favour t)

def deeds (w : World) : Move → List Deed
  | .step t => if (w.step t).isSome then w.stepDeeds t else []
  | _ => []

def after (w : World) (moves : List Move) : World := moves.foldl move w

theorem after_append {w : World} (moves more : List Move) :
    w.after (moves ++ more) = (w.after moves).after more :=
  List.foldl_append

def history (w : World) : List Move → List Deed
  | [] => []
  | m :: rest => w.deeds m ++ (w.move m).history rest

theorem history_append (w : World) (moves more : List Move) :
    w.history (moves ++ more) = w.history moves ++ (w.after moves).history more := by
  induction moves generalizing w with
  | nil => rfl
  | cons m rest ih =>
    rw [List.cons_append, history, history, ih, List.append_assoc]
    rfl

/-- The world that a program starts in: one runtime under a name, or nothing if there can be
none. -/
def start (s : EngineSpec) (label : String) : World :=
  match begin s label with
  | .ok w => w
  | .error _ => {}

variable {w w' : World} {t : Nat}

theorem core_spawn (x : Thread) :
    (w.spawn x).2.core = { w.core with threads := w.core.threads.push x.stack } := by
  unfold core spawn
  congr 1
  exact Array.map_push

theorem tasks_of_not_busy {x : Thread} (hx : w.threads[t]? = some x) (h : ¬w.isBusy t = true) :
    x.tasks = [] := by
  unfold isBusy at h
  simp only [hx, Bool.or_eq_true, not_or, Bool.not_eq_true', Bool.not_eq_true,
    Bool.not_eq_false] at h
  simpa using h.2

theorem acts_move (hc : w.core.Regular) (m : Move) :
    Acts (w.licenceOf m) w.core 0 (w.deeds m) (w.move m).core 0 := by
  cases m with
  | step t =>
    simp only [move, deeds]
    cases h : w.step t with
    | none => exact .nil
    | some w' => exact acts_step hc h
  | expire t =>
    rw [show (w.move (.expire t)).core = w.core from core_modifyThread fun _ => rfl]
    exact .nil
  | hold held => exact .nil
  | call name =>
    simp only [move, deeds, threadNamed]
    split
    · exact .nil
    · show Acts _ w.core 0 [] (w.spawn { name := name }).2.core 0
      rw [core_spawn]
      exact Acts.spawn .unit rfl (by simp [Task.Fits]) rfl
  | instruct t number timed i =>
    simp only [move, deeds]
    split
    · exact .nil
    · next hbusy =>
        have hcore : (w.modifyThread t fun x =>
            { x with tasks := [.perform i], instruction := some number, timed := timed }).core =
            { w.core with
              threads := w.core.threads.modify t fun s => { s with tasks := [.perform i] } } := by
          unfold core modifyThread
          congr 1
          dsimp only
          apply map_modify
          intro x
          rfl
        rw [hcore]
        cases hx : w.threads[t]? with
        | none =>
          rw [modify_eq_self fun s hs => ?_]
          · exact .nil
          · simp [core, hx] at hs
        | some x =>
          have hs : w.core.threads[t]? = some ⟨[], x.reply⟩ := by
            simp [core, hx, Thread.stack, tasks_of_not_busy hx hbusy]
          rw [modify_congr (g := fun _ => ⟨[.perform i], x.reply⟩) fun s hs' => ?_]
          · exact Acts.assign hs rfl (by simp [Task.Fits]) rfl
          · rw [hs] at hs'
            cases hs'
            rfl
  | takeOutput => exact .nil
  | favour q t =>
    have hcore : (w.move (.favour q t)).core = w.core := by
      unfold core
      congr 1
      have hline : ∀ x : Queue, (x.favour t).line = x.line := by
        intro x
        unfold Queue.favour
        split <;> rfl
      exact (map_modify hline).trans (modify_eq_self fun _ _ => rfl)
    rw [hcore]
    exact .nil

theorem acts_start (s : EngineSpec) (label : String) :
    Acts .free ({} : World).core 0 [] (start s label).core 0 := by
  unfold start begin
  split
  · next w hw =>
      split at hw
      · cases hw
      · split at hw
        · cases hw
        · next e made hm =>
            split at hw <;> cases hw
            next ready hs =>
              show Acts .free ({} : World).core 0 [] ready.core 0
              -- seen by a thread that there never is
              obtain ⟨t, ht, hr⟩ : ∃ t, t ≠ made.threads.size ∧ ready.threads.size ≤ t :=
                ⟨ready.threads.size + made.threads.size + 1, by omega, by omega⟩
              have hmake := acts_makeEngine (L := .free) (t := t) (p := 0) hm
              rw [openCore_of_size_le (by simp)] at hmake
              rw [← openCore_of_size_le hr]
              split at hs
              · exact hmake.andThen (acts_startEngine ht hs)
              · cases hs
                exact hmake
  · exact .nil

theorem regular_empty : ({} : World).core.Regular where
  typed t s hs := by simp [core] at hs
  fits t s hs := by simp [core] at hs
  distinct := ⟨List.nodup_nil, List.nodup_nil, List.nodup_nil, List.nodup_nil⟩
  routed h r q hr := by simp [Core.reference?, Core.heaps, core] at hr
  named b hb := by simp [core, Names.bindings] at hb

theorem acts_moves (hc : w.core.Regular) (moves : List Move) :
    Acts .free w.core 0 (w.history moves) (w.after moves).core 0 := by
  induction moves generalizing w with
  | nil => exact .nil
  | cons m rest ih =>
    have hmove := (acts_move hc m).mono (.free _)
    exact hmove.trans (ih (hmove.progress.2 hc))

theorem acts_after (s : EngineSpec) (label : String) (moves : List Move) :
    Acts .free ({} : World).core 0 ((start s label).history moves)
      ((start s label).after moves).core 0 :=
  (acts_start s label).andThen (acts_moves ((acts_start s label).progress.2 regular_empty) moves)

/-- What holds of nothing and is kept by every act holds after every run, with the history of the
run. -/
theorem invariant_after {P : Core → Multiset Asset → List Deed → Prop}
    (step : ∀ {c c' p p' deeds past}, c.Regular → Act .free c p deeds c' p' → P c p past →
      P c' p' (past ++ deeds)) (h : P ({} : World).core 0 []) (s : EngineSpec) (label : String)
    (moves : List Move) : P ((start s label).after moves).core 0 ((start s label).history moves) :=
  (acts_after s label moves).invariant step regular_empty h

end Moves

section Schedules

variable {w w' : World} {t : Nat}

def IsAfter (w w' : World) : Prop := ∃ moves, w' = w.after moves

theorem IsAfter.refl (w : World) : IsAfter w w := ⟨[], rfl⟩

theorem IsAfter.trans {w₁ w₂ w₃ : World} (h : IsAfter w₁ w₂) (h' : IsAfter w₂ w₃) :
    IsAfter w₁ w₃ := by
  obtain ⟨moves, rfl⟩ := h
  obtain ⟨more, rfl⟩ := h'
  exact ⟨moves ++ more, (after_append moves more).symm⟩

theorem isAfter_move (w : World) (m : Move) : IsAfter w (w.move m) := ⟨[m], rfl⟩

theorem isAfter_advance (h : w.mover? = some t) : IsAfter w (w.advance t) := by
  have hmoves : (w.step t).isSome = true :=
    (canMove_eq_isSome_step w t).symm.trans (List.find?_some h)
  obtain ⟨w', hstep⟩ := Option.isSome_iff_exists.mp hmoves
  have hadvance : w.advance t = w.move (.step t) := by
    rw [advance, move, hstep, Option.getD_some, Option.getD_some]
  rw [hadvance]
  exact isAfter_move w (.step t)

theorem isAfter_settle (fuel : Nat) (w : World) : IsAfter w (settle fuel w) := by
  fun_induction settle fuel w with
  | case1 w => exact .refl w
  | case2 fuel w hm => exact .refl w
  | case3 fuel w t hm ih => exact (isAfter_advance hm).trans ih

theorem isAfter_runClocks (fuel n : Nat) (w : World) : IsAfter w (runClocks fuel n w) := by
  fun_induction runClocks fuel n w with
  | case1 w => exact .refl w
  | case2 n w hc => exact .refl w
  | case3 n w t ms hc ih =>
    exact ((isAfter_move w (.expire t)).trans (isAfter_settle fuel _)).trans ih

theorem isAfter_rest (w : World) : IsAfter w (rest w) := by
  have held := (isAfter_move w (.hold true)).trans (isAfter_settle stepLimit _)
  have free := (held.trans (isAfter_move _ (.hold false))).trans (isAfter_settle stepLimit _)
  exact free.trans (isAfter_runClocks stepLimit clockLimit _)

/-- **What a scheduler does with an instruction is a run.** -/
theorem exists_after_obey {thread : String} {number : Nat} {i : Instruction} {out : Output}
    (h : w.obey thread number i = some (out, w')) : ∃ moves, w' = w.after moves := by
  have hcalled := isAfter_move w (.call thread)
  unfold obey at h
  dsimp only at h
  split at h
  · cases h
  · next hbusy =>
      have htaken : _ = w' := congrArg Prod.snd (Option.some.inj h)
      have hgiven := isAfter_move (w.threadNamed thread).2
        (.instruct (w.threadNamed thread).1 number ((w.threadNamed thread).2.isTimed i) i)
      rw [move, if_neg hbusy] at hgiven
      rw [← htaken]
      exact ((hcalled.trans hgiven).trans (isAfter_rest _)).trans (isAfter_move _ .takeOutput)

end Schedules

end World

end ManagedHeap
