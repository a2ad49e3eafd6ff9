import ManagedHeap.Proofs.Productions

/-!
# Tasks end in their productions

**Input.**  A task that a thread performs.

**Algorithm.**  One look at each definition.

**Results.**  `World.rewrites_runTask`: every task but an instruction ends in one of its
productions.
-/

namespace ManagedHeap

namespace World

variable {w w₁ w' : World} {t e : Nat} {task : Task} {r : Reply}

/-- A task ends in one of its productions, and a listener that it calls writes that down. -/
def Rewrites (w : World) (t : Nat) (task : Task) (w' : World) : Prop :=
  ∃ r tasks a c, w.replyOf t = r ∧ task.Produces w.engines t r tasks a c ∧
    w'.view = { (w.view.turn t tasks a).alter c with
      notices := (task.agentCall?.bind AgentCall.note?).toList ++ w.view.notices }

theorem rewrites {tasks : List Task} {a : Option Reply} {c : Notch} (hcall : task.agentCall? = none)
    (hr : w.replyOf t = r) (h : task.Produces w.engines t r tasks a c)
    (hf : w'.view = (w.view.turn t tasks a).alter c) : w.Rewrites t task w' := by
  refine ⟨r, tasks, a, c, hr, h, ?_⟩
  rw [hf, hcall]
  cases c <;> rfl

section Aside

variable {v : World} {l : List Task} (htask : task.isSide = true)

include htask

theorem rewrites_aside {a : Option Reply} (hl : l.all Task.isSide = true)
    (hf : w'.view = w.view.turn t l a) : w.Rewrites t task w' :=
  rewrites (by cases task <;> first | rfl | cases htask) rfl (.aside htask hl) hf

theorem rewrites_aside_same (hv : v.view = w.view) : w.Rewrites t task v :=
  rewrites_aside htask rfl (by rw [hv, Floor.turn_nil])

theorem rewrites_aside_push (hl : l.all Task.isSide = true) (hv : v.view = w.view) :
    w.Rewrites t task (v.push t l) :=
  rewrites_aside htask hl (by rw [view_push, hv])

theorem rewrites_aside_answer (hv : v.view = w.view) : w.Rewrites t task (v.answer t r) :=
  rewrites_aside htask rfl (by rw [view_answer, hv])

theorem rewrites_aside_both (hl : l.all Task.isSide = true) (hv : v.view = w.view) :
    w.Rewrites t task ((v.answer t r).push t l) :=
  rewrites_aside (a := some r) htask hl (by simp [hv])

omit htask in
theorem view_setState (s : EngineState) :
    (w.modifyEngine e fun x => { x with state := s }).view = w.view :=
  view_modifyEngine_of_board fun _ => rfl

theorem rewrites_side (h : w.runTask t task = some w') : w.Rewrites t task w' := by
  have hservice : ∀ {v : World} {e f},
      (∀ x, (f x).pending = x.pending ∧ (f x).awaitingDrain = x.awaitingDrain ∧
        (f x).receiver = x.receiver ∧ (f x).joinable = x.joinable ∧ (f x).channel = x.channel) →
        (v.modifyFinalization e f).view = v.view := view_modifyFinalization
  have haside : ∀ {v}, v.view = w.view → w.Rewrites t task v := rewrites_aside_same htask
  have hpush := fun v l => rewrites_aside_push (w := w) (t := t) (v := v) (l := l) htask
  have hanswer : ∀ {v : World} {r : Reply}, v.view = w.view → w.Rewrites t task (v.answer t r) :=
    rewrites_aside_answer htask
  have hboth := fun v l r => rewrites_aside_both (w := w) (t := t) (v := v) (l := l) (r := r) htask
  cases task with
  | leaveService | announceExit =>
    cases h
    exact haside (hservice fun _ => ⟨rfl, rfl, rfl, rfl, rfl⟩)
  | claimActive | claimPending =>
    simp only [runTask, claimActive, claimPending] at h
    split at h <;> next hmoved =>
      cases h
      simp [hpush, hanswer, hboth, Task.isSide, view_of_exchange hmoved]
  | forget | gate | interrupt | wakeBlocked | wakeQueue | dropFinalizers | dropHeld | keepObject
  | clearReferent | pushQueue | releaseReference | pollQueue | waitOnQueue | setBlocker | awaitEntry
  | finishRemoval =>
    simp only [runTask, passGate, interrupt, wakeBlocked, dropFinalizers, dropHeld, keepObject,
      clearReferent, pushQueue, pollQueue, setBlocker, awaitEntry, finishRemoval] at h
    (repeat' split at h) <;> cases h <;> simp [haside, hpush, hanswer, hboth, Task.isSide]
  | shutdownCollected | awaitExit | stopped =>
    simp only [runTask, shutdownCollected, awaitExit, stopped] at h
    (repeat' split at h) <;> cases h <;>
      simp [haside, hpush, hanswer, Task.isSide, hservice, view_setState]
  | _ => cases htask

end Aside

section Program

variable {v : World} {l : List Task}

theorem rewrites_proceeds (htask : task.isProgram = true) (hl : l.all Task.isProgram = true)
    (hv : v.view = w.view) : w.Rewrites t task (v.push t l) :=
  rewrites (by cases task <;> first | rfl | cases htask) rfl (.proceeds htask hl) (by simp [hv])

theorem rewrites_strays (htask : task.engine? = some e) (he : w.engines[e]? = none) :
    w.Rewrites t task w :=
  rewrites (by cases task <;> first | rfl | cases htask) rfl (.strays htask he) (by simp)

end Program

section Safepoints

theorem rewrites_runOperation {op : Operation} (h : w.runOperation t e op = some w') :
    w.Rewrites t (.registry e op) w' := by
  unfold runOperation at h
  cases hx : w.engines[e]? with
  | none =>
    rw [hx] at h
    cases h
    exact rewrites_strays rfl hx
  | some x =>
    simp only [hx] at h
    cases hstep : x.registry.step t (w.isExpired t) op with
    | none => simp [hstep] at h
    | some after =>
      obtain ⟨registry, p⟩ := after
      simp only [hstep] at h
      have hproduces := Task.Produces.operates (r := w.replyOf t) hx hstep
      cases p with
      | finished | answered r | continues op =>
        cases h; exact rewrites rfl rfl hproduces (by simp [Progress.tasks, Progress.answer?])

theorem rewrites_checkpoint (htask : task = .checkpoint e ∨ ∃ id, task = .selfPoll e id) :
    w.Rewrites t task (w.checkpoint t e) := by
  have hcall : task.agentCall? = none := by rcases htask with rfl | ⟨id, rfl⟩ <;> rfl
  unfold checkpoint
  split
  · next m hm =>
    split
    · exact rewrites hcall rfl (.polls (i := m.id) htask) (by simp)
    · exact rewrites hcall rfl (.passes htask) (by simp)
  · exact rewrites hcall rfl (.passes htask) (by simp)

theorem rewrites_deliver {n : Notice} {recipients : List (Agent Listener)} :
    w.Rewrites t (.deliver e n recipients) (w.deliver t e n recipients) := by
  cases recipients with
  | nil => exact rewrites rfl rfl .delivered (by simp [deliver])
  | cons a others =>
    -- what is heard is written down before anything else
    have hheard : ∀ (v : World) (l : List Task),
        v.view = { w.view with notices := (AgentCall.note? ⟨e, a, n⟩).toList ++ w.view.notices } →
        (l = [] ∨ ∃ gate, l = [.gate gate]) → w.Rewrites t
        (.deliver e n (a :: others)) (v.push t (l ++ [.delivered e, .deliver e n others])) := by
      rintro v l hv (rfl | ⟨gate, rfl⟩)
      · exact ⟨_, _, _, _, rfl, .delivers, by rw [view_push, hv]; rfl⟩
      · exact ⟨_, _, _, _, rfl, .deliversAtGate, by rw [view_push, hv]; rfl⟩
    refine hheard _ _ ?_ ?_
    · rw [AgentCall.note?]
      split <;> rfl
    · (repeat' split) <;> simp

theorem rewrites_resumed {target : ThreadId} :
    w.Rewrites t (.resumed e target) (w.resumed t e target) := by
  unfold resumed
  split
  · next hr => exact rewrites rfl hr .resumesNothing (by simp)
  · next k hr => exact rewrites rfl hr .resumes (by simp)
  · next hnone hsome =>
      refine rewrites rfl rfl (.resumesNobody fun c hr => ?_) (by simp)
      cases c with
      | none => exact hnone hr
      | some k => exact hsome k hr

end Safepoints

section Collections

variable {r : Report} {jobs : List (Job Finalizer)}

theorem view_modifyCollector {f : Collector → Collector} {g : Board → Board}
    (h : ∀ b : Board, { b with collector := f b.collector } = g b) :
    (w.modifyCollector e f).view = w.view.modifyBoard e g :=
  view_modifyEngine fun x => h x.board

theorem view_setPhase (p : Phase) : (w.setPhase e p).view = w.view.modifyBoard e (.setPhase p) :=
  view_modifyCollector fun _ => rfl

theorem setPhase_of_none {p : Phase} (hx : w.engines[e]? = none) : w.setPhase e p = w := by
  unfold setPhase modifyCollector modifyEngine
  rw [modify_eq_self fun x hx' => by rw [hx] at hx'; cases hx']

theorem rewrites_pauseWorld {cycle : Nat} {reason : Reason} :
    w.Rewrites t (.pause e cycle reason) (w.pauseWorld t e cycle reason) := by
  unfold pauseWorld
  split
  · next k x hr hx => exact rewrites rfl hr (.pauses hx) (by simp [view_setPhase])
  · next hnot =>
      cases hx : w.engines[e]? with
      | none =>
        rw [setPhase_of_none hx]
        exact rewrites_strays rfl hx
      | some x =>
        exact rewrites rfl rfl (.givesUp fun k hr => hnot k x hr hx) (by simp [view_setPhase])

theorem rewrites_enqueuePending {pending : List Nat} :
    w.Rewrites t (.enqueuePending e pending jobs r) (w.enqueuePending t e pending jobs r) := by
  cases pending with
  | nil => exact rewrites rfl rfl .claimed (by simp [enqueuePending])
  | cons i rest =>
    simp only [enqueuePending]
    split
    · exact rewrites rfl rfl .leavesPending (by simp)
    · next q hq =>
        split
        · next claimed hmoved =>
            exact rewrites rfl rfl (.claims (q := q)) (by simp [view_of_exchange hmoved])
        · next same hmoved =>
            exact rewrites rfl rfl .leavesPending (by simp [view_of_exchange hmoved])

theorem view_enrol (n : Nat) :
    (w.modifyFinalization e (·.enrol n)).view = w.view.modifyBoard e (.enrol n) :=
  view_modifyEngine fun _ => rfl

theorem rewrites_send : w.Rewrites t (.send e jobs r) (w.send t e jobs r) := by
  unfold send
  split
  · next sent hsent =>
      obtain ⟨x, hx, hsend⟩ := Option.bind_eq_some_iff.mp hsent
      unfold Finalization.send at hsend
      split at hsend <;> cases hsend
      next hopen =>
        refine rewrites rfl rfl (.sends hx hopen) ?_
        rw [view_push, view_recordScheduled, view_setFinalization (g := .send (.run jobs)) hx _ rfl]
        simp
  · next hsent =>
      refine rewrites rfl rfl (.bounces fun x hx => ?_) (by simp)
      rw [hx, Option.bind_some, Finalization.send] at hsent
      split at hsent
      · next hclosed => exact hclosed
      · cases hsent

theorem rewrites_finishCycle : w.Rewrites t (.finishCycle e r) (w.finishCycle t e r) := by
  have hcycles : (w.modifyCollector e fun c => { c with cycles := r.cycle }).view =
      w.view.modifyBoard e fun b =>
      { b with collector := { b.collector with cycles := r.cycle } } :=
    view_modifyCollector fun _ => rfl
  unfold finishCycle
  split
  · next hx => exact rewrites_strays rfl hx
  · next x hx =>
      refine rewrites rfl rfl (.finishes hx) ?_
      dsimp only
      have hrecorded : (if x.settings.statsEnabled then
          (w.modifyCollector e fun c => { c with cycles := r.cycle }).modifyStatistics e
            (·.recordCollection r)
          else w.modifyCollector e fun c => { c with cycles := r.cycle }).view =
            w.view.modifyBoard e (.finish r) := by
        split
        · rw [view_recordCollection, hcycles, Floor.modifyBoard_modifyBoard]
          rfl
        · next hoff =>
            exact view_modifyEngine_at hx (by simp [Engine.board, Engine.post, Board.finish, hoff])
      rw [view_push, view_log, view_log]
      split <;> simp [hrecorded]

end Collections

section Allocation

variable {q : Request}

theorem rewrites_refuseAllocation {v : Reply} (htask : task.isAllocation = true) :
    w.Rewrites t task (w.refuseAllocation t q v) :=
  rewrites (by cases task <;> first | rfl | cases htask) rfl
    (.refusesObject htask (l := q.finalizer.toList) (v := v)) (by simp [refuseAllocation])

theorem rewrites_store {size : Nat} (htask : task.isAllocation = true) :
    w.Rewrites t task (w.store t e q size) :=
  rewrites (by cases task <;> first | rfl | cases htask) rfl (.stores htask)
    (by unfold store; rw [view_answer, view_modifyHeap]; rfl)

end Allocation

section Finalizers

theorem view_receive {x : Runtime} {m : Message Finalizer} {f : Finalization Finalizer}
    (hx : w.engines[e]? = some x) (h : x.finalization.receive? = some (m, f)) :
    (w.modifyFinalization e fun _ => f).view = w.view.modifyBoard e .take := by
  unfold Finalization.receive? at h
  split at h <;> cases h
  next hchannel =>
    exact view_setFinalization hx _ (by simp [Engine.board, Engine.post, Board.take, hchannel])

theorem channel_of_receive? (h : ((w.engines[e]?).bind fun x => x.finalization.receive?) = none)
    (x : Runtime) (hx : w.engines[e]? = some x) : x.finalization.channel = [] := by
  rw [hx, Option.bind_some, Finalization.receive?] at h
  split at h
  · assumption
  · cases h

theorem rewrites_serve (h : w.serve t e = some w') : w.Rewrites t (.serve e) w' := by
  unfold serve at h
  split at h
  · cases h
  · next message rest hreceived =>
      obtain ⟨x, hx, hreceive⟩ := Option.bind_eq_some_iff.mp hreceived
      cases message with
      | run jobs =>
        cases h; exact rewrites rfl rfl (.serves hx hreceive) (by simp [view_receive hx hreceive])
      | shutdown b =>
        cases h; exact rewrites rfl rfl (.hears hx hreceive) (by simp [view_receive hx hreceive])

theorem rewrites_drain {runPending : Bool} :
    w.Rewrites t (.drain e runPending) (w.drain t e runPending) := by
  unfold drain
  split
  · next hnone => exact rewrites rfl rfl (.departs (channel_of_receive? hnone)) (by simp)
  · next message rest hreceived =>
      obtain ⟨x, hx, hreceive⟩ := Option.bind_eq_some_iff.mp hreceived
      have hview := view_receive hx hreceive
      cases message with
      | run jobs =>
        cases runPending with
        | true => exact rewrites rfl rfl (.drains hx hreceive) (by simp [hview])
        | false => exact rewrites rfl rfl (.drainsAway hx hreceive) (by simp [hview])
      | shutdown b => exact rewrites rfl rfl (.skips hx hreceive) (by simp [hview])

theorem rewrites_drainUnstarted : w.Rewrites t (.drainUnstarted e) (w.drainUnstarted t e) := by
  unfold drainUnstarted
  split
  · next hnone => exact rewrites rfl rfl (.departsUnstarted (channel_of_receive? hnone)) (by simp)
  · next message rest hreceived =>
      obtain ⟨x, hx, hreceive⟩ := Option.bind_eq_some_iff.mp hreceived
      have hview := view_receive hx hreceive
      cases message with
      | run jobs => exact rewrites rfl rfl (.drainsUnstarted hx hreceive) (by simp [hview])
      | shutdown b => exact rewrites rfl rfl (.skipsUnstarted hx hreceive) (by simp [hview])

theorem rewrites_runBody {j : Job Finalizer} {actions : List Action} {results : List ActionResult}
    (h : w.runBody t e j actions results = some w') :
    w.Rewrites t (.body e j actions results) w' := by
  have goesOn : ∀ {v : World} {rest more}, v.view = w.view →
      w.Rewrites t (.body e j actions results) (v.push t [.body e j rest more]) := by
    intro v rest more hv
    exact rewrites rfl rfl .goesOn (by rw [view_push, hv]; rfl)
  cases actions with
  | nil =>
    cases h
    exact rewrites rfl rfl (.ends (p := none)) (by simp)
  | cons action rest =>
    cases action with
    | info => cases h; exact goesOn rfl
    | getField index bind | setField index value | resurrect bind | getReferent reference =>
      cases h; exact goesOn (by simp)
    | enqueue reference =>
      simp only [runBody] at h
      split at h <;> cases h
      · exact goesOn rfl
      · next k hk =>
          exact rewrites rfl rfl (.enqueues (l := rest) (h := k)) (by simp [beginEnqueue])
    | collect =>
      cases h
      (repeat' split)
      · exact goesOn rfl
      · exact goesOn rfl
      · exact rewrites rfl rfl (.collectsInside (l := rest)) (by simp)
    | allocate size fields bind =>
      cases h
      (repeat' split)
      · exact goesOn rfl
      · exact goesOn rfl
      · exact rewrites rfl rfl (.allocatesInside (l := rest)) (by simp; rfl)
    | gate gate =>
      simp only [runBody, passGate] at h
      split at h <;> cases h
      exact goesOn rfl
    | panic message =>
      cases h
      exact rewrites rfl rfl (.ends (p := some (message.getD "non-string panic payload"))) (by simp)

theorem rewrites_awaitDrain {ms : Nat} (h : w.awaitDrain t e ms = some w') :
    w.Rewrites t (.awaitDrain e ms) w' := by
  have hwake : (w.modifyFinalization e fun f =>
        { f with awaitingDrain := f.awaitingDrain.filter (· != t) }).view =
      w.view.modifyBoard e (.wake t) := view_modifyEngine fun _ => rfl
  have hsleep : ∀ v : World, (v.modifyFinalization e fun f =>
        { f with awaitingDrain := f.awaitingDrain ++ [t] }).view = v.view.modifyBoard e fun b =>
      { b with sleepers := b.sleepers ++ [t] } := fun v => view_modifyEngine fun _ => rfl
  unfold awaitDrain at h
  cases hx : w.engines[e]? with
  | none =>
    rw [hx] at h
    cases h
    exact rewrites_strays rfl hx
  | some x =>
    simp only [hx] at h
    split at h
    · cases h
    · split at h
      · next hnone =>
          cases h
          exact rewrites rfl rfl (.sees hx hnone) (by simp [hwake])
      · next hsome =>
          split at h <;> cases h
          · exact rewrites rfl rfl .expires (by simp [hwake])
          · refine rewrites rfl rfl (.sleeps hx hsome) ?_
            rw [view_push, hsleep, hwake, Floor.modifyBoard_modifyBoard]
            rfl

theorem rewrites_claimReceiver : w.Rewrites t (.claimReceiver e) (w.claimReceiver t e) := by
  have hclaimed : (w.modifyFinalization e fun f => { f with receiver := .claimed }).view =
      w.view.modifyBoard e .claim := view_modifyEngine fun _ => rfl
  unfold claimReceiver
  split
  · next hx => exact rewrites_strays rfl hx
  · next x hx =>
      dsimp only
      split
      · next hfree => exact rewrites rfl rfl (.claimsReceiver hx hfree) (by simp [hclaimed])
      · next htaken =>
          split
          · next hjoined =>
              exact rewrites rfl rfl (.findsStopped hx htaken (by simpa using hjoined)) (by simp)
          · next hjoinable =>
              -- the request is sent unless the thread has left
              have asks := view_setFinalization (g := .ask) hx
              unfold Finalization.send
              split
              · next sent hsent =>
                  split at hsent <;> cases hsent
                  next hopen =>
                  refine rewrites rfl rfl (.asksToLeave hx htaken (by simpa using hjoinable)) ?_
                  rw [view_push, asks _ (by simp_all [Engine.board, Engine.post, Board.ask])]
                  simp
              · next hsent =>
                  split at hsent
                  · next hclosed =>
                      refine rewrites rfl rfl (.asksToLeave hx htaken (by simpa using hjoinable)) ?_
                      rw [view_push, view_report,
                        asks _ (by simp_all [Engine.board, Engine.post, Board.ask])]
                      simp
                  · cases hsent

theorem view_releaseAgent (a : AgentHandle) : (w.releaseAgent a).view = w.view ∨
    (w.releaseAgent a).view = w.view.modifyBoard a.engine (.resign a.id) := by
  unfold releaseAgent
  dsimp only
  split
  · exact .inl (by simp)
  · exact .inr (view_modifyEngine fun _ => rfl)

end Finalizers

/-- **Every task but an instruction ends in one of its productions.** -/
theorem rewrites_runTask (htask : ∀ i, task ≠ .perform i) (h : w.runTask t task = some w') :
    w.Rewrites t task w' := by
  cases task with
  | perform i => exact (htask i rfl).elim
  | registry e op => exact rewrites_runOperation h
  | checkpoint e => cases h; exact rewrites_checkpoint (.inl rfl)
  | deliver e n recipients => cases h; exact rewrites_deliver
  | resumed e target => cases h; exact rewrites_resumed
  | pause e cycle reason => cases h; exact rewrites_pauseWorld
  | enqueuePending e pending jobs r => cases h; exact rewrites_enqueuePending
  | send e jobs r => cases h; exact rewrites_send
  | finishCycle e r => cases h; exact rewrites_finishCycle
  | serve e => exact rewrites_serve h
  | drain e runPending => cases h; exact rewrites_drain
  | drainUnstarted e => cases h; exact rewrites_drainUnstarted
  | body e job actions results => exact rewrites_runBody h
  | awaitDrain e ms => exact rewrites_awaitDrain h
  | claimReceiver e => cases h; exact rewrites_claimReceiver
  | releaseAgent a =>
    cases h
    rcases view_releaseAgent (w := w) a with hsame | hresigned
    · exact rewrites rfl rfl .keepsAgent (by simp [hsame])
    · exact rewrites rfl rfl .resigns (by simp [hresigned])
  | adopt e foreign =>
    have hattached : ∀ a, (w.modifyThread t fun x => { x with attachment := a }).view = w.view :=
      fun _ => view_modifyThread fun _ => rfl
    simp only [runTask, adopt] at h
    split at h <;> cases h
    · exact rewrites rfl rfl .adopts (by simp [hattached])
    · exact rewrites rfl rfl .adoptsNothing (by simp)
  | selfPoll e target =>
    simp only [runTask, selfPoll] at h
    split at h <;> cases h
    · exact rewrites_checkpoint (.inr ⟨_, rfl⟩)
    · exact rewrites rfl rfl (.passes (.inr ⟨_, rfl⟩)) (by simp)
  | blocking | endRegion | dispatch | suspended | repeatSuspend | reply =>
    simp only [runTask, runBlocking, dispatch, suspended, repeatSuspend] at h
    (repeat' split at h) <;> cases h <;> first
      | exact rewrites rfl rfl .enters (by simp; rfl)
      | exact rewrites rfl rfl .nests (by simp)
      | exact rewrites rfl rfl .leaves (by simp)
      | exact rewrites rfl rfl (.dispatches ‹_›) (by simp)
      | exact rewrites_strays rfl ‹_›
      | exact rewrites rfl ‹_› .suspends (by simp)
      | exact rewrites rfl rfl (.suspendsNobody ‹_›) (by simp)
      | exact rewrites rfl rfl .repeated (by simp)
      | exact rewrites rfl rfl .repeats (by simp)
      | exact rewrites rfl rfl .replies (by simp)
  | unlockCollector e =>
    cases h
    refine rewrites rfl rfl .unlocks ?_
    rw [Floor.turn_nil]
    exact view_modifyCollector fun _ => rfl
  | setPhase e p =>
    cases h; exact rewrites rfl rfl .setsPhase (by rw [Floor.turn_nil]; exact view_setPhase p)
  | collect e reason => cases h; exact rewrites rfl rfl .collects (by simp)
  | enrol e jobs r => cases h; exact rewrites rfl rfl .enrols (by simp [enrol, view_enrol])
  | lockCollector e =>
    simp only [runTask, lockCollector] at h
    (repeat' split at h) <;> cases h
    · next hx => exact rewrites_strays rfl hx
    · next hx hfree =>
        refine rewrites rfl rfl (.locks hx (by simpa using hfree)) ?_
        rw [view_modifyCollector (g := .lock t) fun _ => rfl]
        simp
  | beginCycle e reason =>
    simp only [runTask, beginCycle] at h
    split at h <;> cases h
    · next hx => exact rewrites_strays rfl hx
    · next hx => exact rewrites rfl rfl (.begins (i := w.currentId t e) hx) (by simp)
  | collectOpen e =>
    simp only [runTask, collectOpen] at h
    (repeat' split at h) <;> cases h
    · next hx => exact rewrites_strays rfl hx
    · exact rewrites rfl rfl .refusesCollection (by simp)
    · next hx _ => exact rewrites rfl rfl (.collectsOpen hx) (by simp)
  | schedule e jobs r =>
    simp only [runTask, schedule] at h
    (repeat' split at h) <;> cases h
    · exact rewrites rfl rfl .schedulesNothing (by simp)
    · next hx => exact rewrites_strays rfl hx
    · next hjobs hx haccepts => exact rewrites rfl rfl (.accepts hx hjobs haccepts) (by simp)
    · next hjobs hx hrefuses =>
        exact rewrites rfl rfl (.refuses hx hjobs (by simpa using hrefuses)) (by simp [view_enrol])
  | allocate | attempt | retry =>
    simp only [runTask, allocate, attempt, retry] at h
    (repeat' split at h) <;> cases h <;> first
      | exact rewrites_strays rfl ‹_›
      | exact rewrites_refuseAllocation rfl
      | exact rewrites_store rfl
      | exact rewrites rfl rfl .allocates (by simp)
      | exact rewrites rfl rfl (.collectsFirst ‹_›) (by simp; rfl)
      | exact (Bool.not_eq_true _ ▸ ‹¬_ = true›) ▸ rewrites rfl rfl .collectsAgain (by simp)
  | closeChannel e =>
    simp only [runTask, closeChannel] at h
    split at h <;> cases h
    · next hx => exact rewrites_strays rfl hx
    · next x hx =>
        refine rewrites rfl rfl (.closes hx) ?_
        have hclosed : (w.modifyFinalization e Finalization.close).view =
            w.view.modifyBoard e .close := view_modifyEngine fun _ => rfl
        simp [hclosed]
  | runFinalization e ms =>
    simp only [runTask, runFinalization] at h
    (repeat' split at h) <;> cases h
    · next hx => exact rewrites_strays rfl hx
    · next hx hpending => exact rewrites rfl rfl (.finds hx hpending) (by simp)
    · exact rewrites rfl rfl .despairs (by simp)
    · exact rewrites rfl rfl .waits (by simp)
  | runJob | bodyResumes | finishObject | dropRoot | concludeJob | countPanic | discardJobs
  | dropJobs | retire | announce =>
    simp only [runTask, runJob, bodyResumes, concludeJob, discardJobs, dropJobs] at h
    (repeat' split at h) <;> cases h <;> first
      | exact rewrites rfl rfl .runs (by simp)
      | exact rewrites rfl rfl .comesBack (by simp; rfl)
      | exact rewrites rfl rfl .finishesObject (by simp)
      | exact rewrites rfl rfl .dropsRoot (by simp)
      | exact rewrites rfl rfl .completes (by simp)
      | exact rewrites rfl rfl .panics (by simp)
      | exact rewrites rfl rfl .countsPanic (by simp)
      | exact rewrites rfl rfl .discarded (by simp)
      | exact rewrites rfl rfl .discards (by simp)
      | exact rewrites rfl rfl .dropped (by simp)
      | exact rewrites rfl rfl .drops (by simp)
      | exact rewrites rfl rfl .retires ((view_modifyEngine fun _ => rfl).trans (by simp; rfl))
      | exact rewrites rfl rfl .announces ((view_modifyEngine fun _ => rfl).trans (by simp; rfl))
  | stopEngine e =>
    simp only [runTask, stopEngine] at h
    (repeat' split at h) <;> cases h
    · next hx => exact rewrites_strays rfl hx
    · exact rewrites rfl rfl .stopsAgain (by simp)
    · exact rewrites rfl rfl (.stopsAfter ‹_› ‹_›) (by simp [view_setState])
    · next hexit =>
        exact rewrites rfl rfl
          (.stopsAtOnce ‹_› ‹_› (by simpa using hexit)) (by simp [view_setState])
  | refuseWork e =>
    cases h
    have hrefused : (w.modifyFinalization e Finalization.refuse).view = w.view :=
      view_modifyFinalization fun _ => ⟨rfl, rfl, rfl, rfl, rfl⟩
    exact rewrites rfl rfl .refusesWork (by simp [refuseWork, hrefused])
  | releaseEngine e =>
    have hreleased :
        (w.modifyEngine e fun x => { x with handles := x.handles - 1 }).view = w.view :=
      view_modifyEngine_of_board fun _ => rfl
    simp only [runTask, releaseEngine] at h
    (repeat' split at h) <;> cases h
    · next hx => exact rewrites_strays rfl hx
    · exact rewrites rfl rfl .releasesLast (by simp [hreleased])
    · exact rewrites rfl rfl .releases (by simp [hreleased])
  | garbage | garbageNext | chain | chainNext | conclude =>
    simp only [runTask, garbage, garbageNext, chain, chainNext, conclude] at h
    (repeat' split at h) <;> cases h <;> exact rewrites_proceeds rfl rfl (by simp)
  | finish f => cases h; exact rewrites rfl rfl (.proceeds rfl List.all_nil) (by simp [finish])
  | delivered e =>
    cases h
    have hcounted : (w.delivered e).view = w.view.modifyBoard e .countDelivery :=
      view_modifyEngine fun _ => rfl
    exact rewrites rfl rfl .countsDelivery (by simp [hcounted])
  | _ => exact rewrites_side rfl h

end World

end ManagedHeap
