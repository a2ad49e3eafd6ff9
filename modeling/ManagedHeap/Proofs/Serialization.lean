import ManagedHeap.Proofs.Cycles
import ManagedHeap.Proofs.Nesting
import ManagedHeap.Proofs.Phantoms

/-!
# Collections are serialized

**Input.**  A run in which threads collect, allocate, suspend and resume each other, and world stops
time out.

**Algorithm.**  The clock of a heap counts its pauses, and an agent hears what is told while it is
registered.  Whoever has the lock of a collector gives it back without ever waiting for its own
suspension to end.

**Results.**  `World.serializes_after`: what the collections of an engine are, whatever threads do.
-/

namespace ManagedHeap

variable {r : Reply} {rest tasks : List Task} {k : Nat} {task : Task} {x : Runtime}
  {a : Option Reply} {c : Notch} {op : Operation} {id : ThreadId}

section Clocks

variable {f : Heap Finalizer → Heap Finalizer}

def Deed.isPause (e : Nat) : Deed → Bool
  | .paused k => k == e
  | _ => false

/-- Whether the clocks of heaps count pauses. -/
structure Core.Clocked (c : Core) (past : List Deed) : Prop where
  clock : ∀ e x, c.heaps[e]? = some x → x.clock = past.countP (Deed.isPause e)
  absent : ∀ e, c.heaps[e]? = none → past.countP (Deed.isPause e) = 0

def Heap.pauseDeeds (x : Heap Finalizer) (k : Nat) (settings : Settings) (reason : Reason) :
    List Deed :=
  .paused k :: (((x.pause settings reason).jobs.map fun j => .scheduled j.object j.finalizer) ++
    (x.pause settings reason).discarded.map fun d => .discarded ⟨x.key, d.1⟩ d.2)

variable {c c' : Core} {p p' : Multiset Asset} {deeds past : List Deed} {e k : Nat}

theorem Core.Clocked.of_heaps (h : c.Clocked past) (hheaps : c'.heaps = c.heaps)
    (hdeeds : ∀ e, deeds.countP (Deed.isPause e) = 0) : c'.Clocked (past ++ deeds) where
  clock e x hx := by
    rw [List.countP_append, hdeeds]
    exact h.clock e x (hheaps ▸ hx)
  absent e he := by
    rw [List.countP_append, hdeeds]
    exact h.absent e (hheaps ▸ he)

theorem Core.heaps_modifyHeap_eq_none
    (h : (c.modifyHeap k f).heaps[e]? = none) : c.heaps[e]? = none := by
  rwa [Core.heaps_modifyHeap, Array.getElem?_eq_none_iff, Array.size_modify,
    ← Array.getElem?_eq_none_iff] at h

theorem Core.Clocked.modifyHeap (h : c.Clocked past)
    (hf : ∀ x, c.heaps[k]? = some x → (f x).clock = x.clock)
    (hdeeds : ∀ e, deeds.countP (Deed.isPause e) = 0) :
    (c.modifyHeap k f).Clocked (past ++ deeds) where
  clock := by
    refine Core.forall_heaps_modifyHeap ?_ ?_
    · intro e x hx
      rw [List.countP_append, hdeeds]
      exact h.clock e x hx
    · intro x hx hclock
      rw [hf x hx, hclock]
  absent e he := by
    rw [List.countP_append, hdeeds]
    exact h.absent e (Core.heaps_modifyHeap_eq_none he)

theorem countP_pauseDeeds {x : Heap Finalizer} {settings : Settings} {reason : Reason} :
    (x.pauseDeeds k settings reason).countP (Deed.isPause e) = if k = e then 1 else 0 := by
  have hothers : List.countP (Deed.isPause e) (((x.pause settings reason).jobs.map fun j =>
        .scheduled j.object j.finalizer) ++ (x.pause settings reason).discarded.map fun d =>
        .discarded ⟨x.key, d.1⟩ d.2) = 0 := by
    rw [List.countP_eq_zero]
    intro d hd
    rcases List.mem_append.mp hd with hd | hd <;> obtain ⟨y, -, rfl⟩ :=
      List.mem_map.mp hd <;> exact Bool.false_ne_true
  rw [Heap.pauseDeeds, List.countP_cons, hothers, Nat.zero_add]
  simp [Deed.isPause]

theorem Act.clocked (h : Act L c p deeds c' p') (hc : c.Clocked past) :
    c'.Clocked (past ++ deeds) := by
  cases h with
  | transfer heaps => exact hc.of_heaps heaps fun _ => rfl
  | makeHeap =>
    rw [List.append_nil]
    refine ⟨Core.forall_heaps_addHeap hc.clock ?_, fun e he => hc.absent e ?_⟩
    · refine (hc.absent _ (Array.getElem?_eq_none ?_)).symm
      rw [Core.heaps, Array.size_map]
    · rw [Core.heaps, Array.getElem?_eq_none_iff, Array.size_map] at he ⊢
      rw [Array.size_push] at he
      omega
  | makeLine | bind | unbind | run | discard | dequeue => exact hc.of_heaps rfl fun _ => rfl
  | fetch | clone | drop | finish | write | adjust | settle | claim | retain | release
  | discharge =>
    exact hc.modifyHeap (fun _ _ => rfl) fun _ => rfl
  | store _ _ _ f =>
    refine hc.modifyHeap (fun _ _ => rfl) fun e => ?_
    cases f <;> rfl
  | refer hx hn =>
    refine hc.modifyHeap (fun y hy => ?_) fun _ => rfl
    cases hx.symm.trans hy
    unfold Heap.newReference at hn
    split at hn <;> cases hn
    rfl
  | @enqueue _ q k =>
    have hretained : (c.modifyHeap k.heap (·.retain k.position)).Clocked (past ++ []) :=
      hc.modifyHeap (fun _ _ => rfl) fun _ => rfl
    rw [List.append_nil] at hretained
    exact hretained.of_heaps rfl fun _ => rfl
  | @pause k _ x hx settings reason =>
    refine ⟨fun e y hy => ?_, fun e he => ?_⟩
    · rw [List.countP_append]
      refine Eq.trans ?_ (congrArg (_ + ·) countP_pauseDeeds.symm)
      rw [Core.heaps_modifyHeap, Array.getElem?_modify] at hy
      split at hy
      · next hk =>
          subst hk
          rw [hx] at hy
          cases hy
          rw [← hc.clock k x hx, if_pos rfl]
          rfl
      · next hk =>
          rw [if_neg hk]
          exact hc.clock e y hy
    · replace he := Core.heaps_modifyHeap_eq_none he
      rw [List.countP_append, hc.absent e he, Nat.zero_add]
      refine countP_pauseDeeds.trans (if_neg ?_)
      rintro rfl
      rw [hx] at he
      cases he

end Clocks

namespace World

variable {w : World} {m : Move} {e t : Nat} (s : EngineSpec) (label : String) (moves : List Move)

theorem clocked_after :
    ((start s label).after moves).core.Clocked ((start s label).history moves) :=
  invariant_after (P := fun c _ past => c.Clocked past) (fun _ h => h.clocked)
    ⟨fun e x h => by simp [core, Core.heaps] at h, fun _ _ => rfl⟩ s label moves

theorem countP_deedsOf (hthere : task.isOuter e = true ∨ w.engines[e]?.isSome = true) :
    (w.deedsOf t task).countP (Deed.isPause e) = task.ticks e (w.replyOf t) := by
  by_cases hpause : ∃ k c reason, task = .pause k c reason
  · obtain ⟨k, c, reason, rfl⟩ := hpause
    show (w.pauseDeeds t k reason).countP _ = _
    unfold pauseDeeds
    split
    · next threads x hr hx =>
        rw [hr]
        exact countP_pauseDeeds
    · next hno =>
        symm
        rcases hthere with houter | hsome
        · exact Task.ticks_of_isOuter houter
        · obtain ⟨x, hx⟩ := Option.isSome_iff_exists.mp hsome
          cases hr : w.replyOf t with
          | count n =>
            refine if_neg fun hk => ?_
            subst hk
            exact hno n x hr hx
          | _ => rfl
  · have hticks : task.ticks e (w.replyOf t) = 0 := by
      cases task <;> first | rfl | exact (hpause ⟨_, _, _, rfl⟩).elim
    rw [hticks, List.countP_eq_zero]
    intro d hd hd'
    have hpaused : d.OfPause := by cases d <;> trivial
    obtain ⟨k, c, reason, htask, -⟩ := exists_pause_of_mem_deedsOf hpaused hd
    exact hpause ⟨k, c, reason, htask⟩

theorem countP_deeds {told : List Notice} {ticks : Nat} {ends : List Reply}
    {holder : Option (Nat × Leg)} (h : Serial w.floor e told ticks ends holder) (m : Move) :
    (w.deeds m).countP (Deed.isPause e) = (w.taken m).elim 0 (Stack.ticks e) := by
  cases m with
  | step t =>
    by_cases hstep : (w.step t).isSome = true
    · obtain ⟨w', hw'⟩ := Option.isSome_iff_exists.mp hstep
      obtain ⟨x, task, rest, after, hx, htasks, -, -⟩ := exists_task_of_step hw'
      have hs : w.stackOf t = some ⟨task :: rest, x.reply⟩ := by
        rw [stackOf, hx]
        exact congrArg some (congrArg (Stack.mk · x.reply) htasks)
      rw [taken_of_some hstep, hs, deeds, if_pos hstep, stepDeeds_eq hx htasks]
      refine (countP_deedsOf ?_).trans (congrArg (task.ticks e) (replyOf_take hx rest))
      cases hboard : w.engines[e]? with
      | some y => exact .inr (Option.isSome_iff_exists.mpr ⟨y, hboard⟩)
      | none =>
        have hall := (h.absent (by rw [boards_floor, hboard]; rfl)).2.2 ((threads_floor t).trans hs)
        rw [List.all_cons, Bool.and_eq_true] at hall
        exact .inl hall.1
    · rw [taken, deeds, if_neg hstep, if_neg hstep]
      rfl
  | _ => rfl

theorem countP_history (e : Nat) :
    ((start s label).history moves).countP (Deed.isPause e) = (start s label).pauses e moves := by
  induction moves using List.reverseRecOn with
  | nil => rfl
  | append_singleton moves m ih =>
    obtain ⟨holder, h⟩ := serial_after s label moves e
    rw [history_append, List.countP_append, ih, pauses_snoc]
    refine congrArg (_ + ·) (Eq.trans ?_ (countP_deeds h m))
    exact congrArg (List.countP _) (List.append_nil _)

theorem clock_after (hx : ((start s label).after moves).engines[e]? = some x) :
    x.heap.clock = (start s label).pauses e moves := by
  rw [← countP_history]
  exact (clocked_after s label moves).clock e _ (heaps_core hx)

end World

section Hearing

/-- What an agent of an engine hears of collections by a step. -/
def Task.hears (e agent : Nat) (task : Task) : List Notice :=
  task.agentCall?.elim [] (AgentCall.heard e agent Notice.isCycle)

/-- What an agent of an engine has still to hear of collections. -/
def Task.ahead (e agent : Nat) : Task → List Notice := Task.noticesFor e agent Notice.isCycle

variable {e agent : Nat} {task : Task}

theorem Task.hears_of_isOuter (h : task.isOuter e = true) : task.hears e agent = [] := by
  cases task with
  | deliver k n recipients =>
    cases recipients with
    | nil => rfl
    | cons y others =>
      refine if_neg fun (hk : k = e ∧ _ ∧ n.isCycle = true) => ?_
      simp [isOuter, isInner, hk.1, hk.2.2] at h
  | _ => rfl

theorem Task.ahead_of_isOuter (h : task.isOuter e = true) : task.ahead e agent = [] := by
  cases task with
  | deliver k n recipients =>
    refine if_neg fun hk => ?_
    simp [isOuter, isInner, hk.1, hk.2] at h
  | _ => rfl

theorem ahead_of_all_isOuter (h : tasks.all (Task.isOuter e) = true) :
    tasks.flatMap (Task.ahead e agent) = [] := by
  rw [List.flatMap_eq_nil_iff]
  exact fun task htask => Task.ahead_of_isOuter (List.all_eq_true.mp h task htask)

theorem allow_of_isCycle {n : Notice} {c : Capabilities} (hn : n.isCycle = true)
    (hc : c.gcEvents = true) : c.allow n = true := by
  cases n <;> first | exact hc | cases hn

theorem tells_first {n : Notice} {y : Agent Listener} {others : List (Agent Listener)}
    (hn : n.isCycle = true) : (Task.deliver e n (y :: others)).hears e agent ++
      ((Task.deliver e n others).ahead e agent ++ []) =
      (Task.deliver e n (y :: others)).ahead e agent ++ [] := by
  by_cases hy : y.id = agent <;> simp [Task.hears, Task.agentCall?, AgentCall.heard, Task.ahead,
    Task.noticesFor, hn, hy, List.replicate_succ]

theorem Task.Produces.informs {engines : Array Runtime}
    {t : Nat} (h : task.Produces engines t r tasks a c)
    (hd : task.Defers rest) (haims : task.Aims engines.size) (hx : engines[e]? = some x)
    (htells : ∀ n, n.isCycle = true → (x.agents.recipients n).countP (·.id == agent) = 1) :
    task.hears e agent ++ tasks.flatMap (Task.ahead e agent) = task.ahead e agent ++
      task.announces e := by
  by_cases houter : task.isOuter e = true
  · rw [hears_of_isOuter houter, ahead_of_isOuter houter, announces_of_isOuter houter,
      List.nil_append, List.nil_append]
    obtain ⟨hleaves, -⟩ := h.outer hd haims houter
    cases hleaves with
    | outer hall => exact ahead_of_all_isOuter hall
    | collects _ hmore =>
      rw [List.flatMap_append, ahead_of_all_isOuter hmore]
      rfl
  · have hinner : task.isInner e = true := by simpa [isOuter] using houter
    cases h with
    | aside htask => exact absurd (isOuter_of_isSide htask) houter
    | proceeds htask => exact absurd (isOuter_of_isProgram htask) houter
    | @strays k _ _ htask hnone =>
      have hk : k ≠ e := by
        rintro rfl
        cases hnone.symm.trans hx
      cases task with
      | dispatch | lockCollector | beginCycle | pause | schedule | finishCycle =>
        cases htask
        simp [isInner, hk] at hinner
      | _ => first | cases hinner | cases htask
    | operates => cases hinner
    | passes htask | polls htask => rcases htask with rfl | ⟨_, rfl⟩ <;> cases hinner
    | refusesObject htask | stores htask => cases task <;> first | cases hinner | cases htask
    | @enters hold _ k i inner | @nests hold _ inner =>
      have hahead : inner.ahead e agent = [] := by cases inner <;> first | rfl | cases hinner
      exact congrArg (· ++ []) hahead
    | @dispatches k y n _ hy =>
      obtain ⟨rfl, hn⟩ : k = e ∧ n.isCycle = true := by simpa [isInner] using hinner
      cases hx.symm.trans hy
      simp [Task.hears, Task.agentCall?, Task.ahead, Task.noticesFor, Task.announces, htells n hn,
        hn]
    | @delivers k n y others | @deliversAtGate k n y others =>
      obtain ⟨rfl, hn⟩ : k = e ∧ n.isCycle = true := by simpa [isInner] using hinner
      exact tells_first hn
    | @delivered k n =>
      simp [Task.hears, Task.agentCall?, Task.ahead, Task.noticesFor, Task.announces]
    | serves | drains => cases hinner
    | _ => rfl

/-- What an agent has still to be told by all threads. -/
def Floor.ahead (e agent : Nat) (f : Floor) : List Notice :=
  f.threads.toList.flatMap fun s => s.tasks.flatMap (Task.ahead e agent)

variable {f : Floor} {t : Nat} {s s' : Stack}

theorem Floor.ahead_of_others (hs : f.threads[t]? = some s)
    (h : ∀ u x, u ≠ t → f.threads[u]? = some x → x.tasks.flatMap (Task.ahead e agent) = []) :
    f.ahead e agent = s.tasks.flatMap (Task.ahead e agent) := by
  obtain ⟨hlt, hget⟩ :=
    List.getElem?_eq_some_iff.mp (by simpa using hs : f.threads.toList[t]? = some s)
  have hothers : ∀ u, u ≠ t → ∀ x, f.threads.toList[u]? = some x →
      x.tasks.flatMap (Task.ahead e agent) = [] := by
    intro u hu x hx
    exact h u x hu (by simpa using hx)
  have hbefore :
      (f.threads.toList.take t).flatMap (fun s => s.tasks.flatMap (Task.ahead e agent)) = [] := by
    rw [List.flatMap_eq_nil_iff]
    intro x hx
    obtain ⟨u, hu⟩ := List.getElem?_of_mem hx
    rw [List.getElem?_take] at hu
    split at hu
    · next hlt => exact hothers u hlt.ne x hu
    · cases hu
  have hbehind : (f.threads.toList.drop (t + 1)).flatMap (fun s =>
        s.tasks.flatMap (Task.ahead e agent)) = [] := by
    rw [List.flatMap_eq_nil_iff]
    intro x hx
    obtain ⟨u, hu⟩ := List.getElem?_of_mem hx
    rw [List.getElem?_drop] at hu
    exact hothers _ (by omega) x hu
  rw [Floor.ahead, ← List.take_append_drop t f.threads.toList, List.flatMap_append, hbefore,
    List.drop_eq_getElem_cons hlt, List.flatMap_cons, hbehind, hget]
  simp

theorem Floor.ahead_put (hs : f.threads[t]? = some s)
    (h : s'.tasks.flatMap (Task.ahead e agent) = s.tasks.flatMap (Task.ahead e agent)) :
    (f.put t s').ahead e agent = f.ahead e agent := by
  rw [Floor.ahead, Floor.ahead, List.flatMap_def, List.flatMap_def]
  refine congrArg List.flatten (List.ext_getElem? fun u => ?_)
  rw [List.getElem?_map, List.getElem?_map, Array.getElem?_toList, Array.getElem?_toList]
  by_cases hu : u = t
  · subst hu
    rw [Floor.getElem?_put_self hs, hs, Option.map_some, Option.map_some, h]
  · rw [Floor.getElem?_put_of_ne hu]

theorem Floor.ahead_push (s : Stack) : Floor.ahead e agent { f with threads := f.threads.push s } =
    f.ahead e agent ++ s.tasks.flatMap (Task.ahead e agent) := by
  simp [Floor.ahead]

theorem Floor.Grows.ahead {f' : Floor} (h : f.Grows R f') : f'.ahead e agent = f.ahead e agent := by
  induction h with
  | refl => rfl
  | @tail g _ _ opens ih =>
    cases opens with
    | registers | drops | resigns | resets | makes => exact ih
    | @hires k =>
      refine (Floor.ahead_push _).trans ?_
      exact (List.append_nil _).trans ih

theorem Stands.ahead_of_none {n : Nat} (h : Stands e n s none) (agent : Nat) :
    s.tasks.flatMap (Task.ahead e agent) = [] := by
  cases h with
  | outside hall => exact ahead_of_all_isOuter hall
  | @waits front rest r hfront hrest =>
    have hback :
        (.unlockCollector e :: .checkpoint e :: rest).flatMap (Task.ahead e agent) = [] := by
      rw [List.flatMap_cons, List.flatMap_cons, ahead_of_all_isOuter hrest]
      rfl
    rw [List.flatMap_append, hback, List.append_nil]
    cases hfront with
    | asks | enters => rfl
    | waits hpassing =>
      rw [List.flatMap_cons, List.flatMap_append,
        ahead_of_all_isOuter (World.all_imp Task.isOuter_of_isPassing hpassing)]
      rfl

theorem Course.ahead_of_announces {n : Nat} {front : List Task}
    {leg : Leg} (h : Course e n (task :: front) r leg)
    (agent : Nat) : task.announces e = [] ∨ front.flatMap (Task.ahead e agent) = [] := by
  cases h with
  | passes htask => exact .inl (announces_of_isPassing htask)
  | delivers htask => exact .inr rfl
  | _ => exact .inr rfl

end Hearing

/-- What an agent is told about collections by the next step of a stack. -/
def Stack.hears (e agent : Nat) (s : Stack) : List Notice :=
  s.tasks.head?.elim [] (Task.hears e agent)

namespace World

variable {w : World} {e agent t ticks : Nat} {told : List Notice} {ends : List Reply}
  {holder : Option (Nat × Leg)}

theorem hears_steps (hw : w.Ready) (hdistinct : w.floor.Distinct)
    (h : Serial w.floor e told ticks ends holder)
    (hagent : w.Informs e agent Capabilities.gcEvents) (hs : w.stackOf t = some ⟨task :: rest, r⟩)
    (hproduces : task.Produces w.engines t r tasks a c) :
    task.hears e agent ++ ((w.floor.put t ⟨tasks ++ rest, a.getD r⟩).alter c).ahead e agent =
      w.floor.ahead e agent ++ task.announces e := by
  obtain ⟨x, hx, hinforms⟩ := hagent
  have hs' := (threads_floor t).trans hs
  have hone := hproduces.informs (hw.defers hs) (hw.targets hs) hx fun n hn =>
      countP_recipients (hdistinct e _ (Serial.exists_board hx)) hinforms fun c hc =>
      allow_of_isCycle hn hc
  have halter : ((w.floor.put t ⟨tasks ++ rest, a.getD r⟩).alter c).ahead e agent =
      (w.floor.put t ⟨tasks ++ rest, a.getD r⟩).ahead e agent := by
    rw [Floor.ahead, Floor.threads_alter]
    rfl
  rw [halter]
  have hstands := h.stands hs'
  cases hleg : legOf holder t with
  | none =>
    rw [hleg] at hstands
    have hnone := hstands.ahead_of_none agent
    rw [List.flatMap_cons, List.append_eq_nil_iff] at hnone
    have hannounces : task.announces e = [] := by
      generalize hy : (⟨task :: rest, r⟩ : Stack) = y at hstands
      cases hstands with
      | outside hall =>
        subst hy
        rw [List.all_cons, Bool.and_eq_true] at hall
        exact Task.announces_of_isOuter hall.1
      | @waits front back _ hfront hback =>
        cases front with
        | nil => cases hfront
        | cons first front =>
          obtain ⟨rfl, -⟩ := List.cons.inj ((Stack.mk.inj hy).1.trans (List.cons_append ..))
          exact hfront.announces
    rw [hnone.1, hannounces, List.append_nil, List.append_eq_nil_iff] at hone
    rw [hone.1, hannounces, List.append_nil, List.nil_append]
    refine Floor.ahead_put hs' ?_
    rw [List.flatMap_append, hone.2, List.flatMap_cons, hnone.1]
  | some leg =>
    -- nobody else has anything to tell
    obtain rfl := Serial.eq_of_legOf hleg
    have hothers : ∀ u y, u ≠ t → w.floor.threads[u]? = some y →
        y.tasks.flatMap (Task.ahead e agent) = [] := by
      intro u y hu hy
      have hstands := h.stands hy
      rw [Serial.legOf_of_ne hu] at hstands
      exact hstands.ahead_of_none agent
    rw [Floor.ahead_of_others hs' hothers,
      Floor.ahead_of_others (Floor.getElem?_put_self hs' _) fun u y hu hy =>
      hothers u y hu ((Floor.getElem?_put_of_ne hu _).symm.trans hy), List.flatMap_append,
      ← List.append_assoc, hone, List.flatMap_cons, List.append_assoc, List.append_assoc]
    refine congrArg (_ ++ ·) ?_
    have hquiet : task.announces e = [] ∨ rest.flatMap (Task.ahead e agent) = [] := by
      rw [Serial.legOf_self] at hstands
      generalize hy : (⟨task :: rest, r⟩ : Stack) = y at hstands
      cases hstands with
      | @inside front back _ leg hfront hback =>
        cases front with
        | nil =>
          obtain ⟨rfl, -⟩ := List.cons.inj (Stack.mk.inj hy).1
          exact .inl rfl
        | cons first front =>
          obtain ⟨rfl, rfl⟩ := List.cons.inj ((Stack.mk.inj hy).1.trans (List.cons_append ..))
          refine (hfront.ahead_of_announces agent).imp_right fun hfront => ?_
          rw [List.flatMap_append, hfront, List.flatMap_cons, List.flatMap_cons,
            ahead_of_all_isOuter hback]
          rfl
    rcases hquiet with hnone | hnone <;> rw [hnone, List.append_nil, List.nil_append]

/-- **What an agent was told and has still to be told comes to what is told to all.** -/
theorem hears_move (hw : w.Ready) (hdistinct : w.floor.Distinct)
    (h : Serial w.floor e told ticks ends holder) (hagent : w.Informs e agent Capabilities.gcEvents)
    (m : Move) : (w.taken m).elim [] (Stack.hears e agent) ++ (w.move m).floor.ahead e agent =
      w.floor.ahead e agent ++ (w.taken m).elim [] (Stack.announces e) := by
  have hmove := rearranges_move w m
  generalize (w.move m).floor = f at hmove
  cases hmove with
  | rests hrests =>
    rw [taken_of_none hrests]
    exact (List.append_nil _).symm
  | comes => exact Floor.ahead_push _
  | @instructs t number timed i r hs =>
    refine (Floor.ahead_put ((threads_floor t).trans hs) ?_).trans (List.append_nil _).symm
    rfl
  | @steps t task rest tasks r a c hstep hs hproduces =>
    rw [taken_of_some hstep, hs]
    exact hears_steps hw hdistinct h hagent hs hproduces
  | @performs t i rest tasks r a f hstep hs hopening hgrows =>
    obtain rfl : rest = [] := hw.defers hs
    have hs' := (threads_floor t).trans hs
    have hthere := hgrows.threads_of_some (Floor.getElem?_put_self hs' ⟨[], r⟩)
    rw [taken_of_some hstep, hs]
    refine Eq.trans ?_ (List.append_nil _).symm
    have hall : (tasks ++ []).all (Task.isOuter e) = true := by
      rw [List.append_nil]
      exact World.all_imp Task.isOuter_of_isFirst hopening.all_isFirst
    calc (f.put t ⟨tasks ++ [], a.getD r⟩).ahead e agent = f.ahead e agent :=
          Floor.ahead_put hthere (ahead_of_all_isOuter hall)
      _ = (w.floor.put t ⟨[], r⟩).ahead e agent := hgrows.ahead
      _ = w.floor.ahead e agent := Floor.ahead_put hs' rfl

theorem heard_snoc (moves : List Move) (m : Move) :
    w.heard e agent Notice.isCycle (moves ++ [m]) = w.heard e agent Notice.isCycle moves ++
      ((w.after moves).taken m).elim [] (Stack.hears e agent) := by
  rw [heard, agentCalls_append, agentCalls_singleton, List.flatMap_append, ← heard]
  refine congrArg (w.heard e agent Notice.isCycle moves ++ ·) ?_
  rcases (w.after moves).taken m with _ | ⟨_ | ⟨task, rest⟩, r⟩
  · rfl
  · rfl
  · show (task.agentCall?.toList).flatMap _ = task.agentCall?.elim [] _
    cases task.agentCall? <;> simp

theorem heard_after (s : EngineSpec) (label : String) (before during : List Move)
    (hagent : ∀ past, past <+: during →
      ((start s label).after (before ++ past)).Informs e agent Capabilities.gcEvents) :
    ((start s label).after before).heard e agent Notice.isCycle during ++
      ((start s label).after (before ++ during)).floor.ahead e agent =
      ((start s label).after before).floor.ahead e agent ++
      ((start s label).after before).announced e during := by
  induction during using List.reverseRecOn with
  | nil =>
    rw [List.append_nil]
    exact (List.append_nil _).symm
  | append_singleton during m ih =>
    obtain ⟨holder, h⟩ := serial_after s label (before ++ during) e
    have hmove := hears_move (ready_after s label _) (distinct_after s label _) h
      (hagent during (List.prefix_append ..)) m
    have hpast := ih fun past hpast => hagent past (hpast.trans (List.prefix_append ..))
    rw [heard_snoc, announced_snoc, ← after_append, List.append_assoc, ← List.append_assoc before,
      after_append _ [m]]
    refine (congrArg (_ ++ ·) hmove).trans ?_
    rw [← List.append_assoc, hpast, List.append_assoc]

end World

section Holders

/-- Whether a task will take the lock of a collector. -/
def Task.locks (e : Nat) : Task → Bool
  | .lockCollector k | .blocking _ (.lockCollector k) => k == e
  | _ => false

/-- Whether a task gives the lock of a collector back. -/
def Task.unlocks (e : Nat) : Task → Bool
  | .unlockCollector k => k == e
  | _ => false

/-- Whether a thread with this stack has taken the lock of a collector and not yet given it back. -/
def Stack.collects (e : Nat) (s : Stack) : Bool :=
  s.tasks.any (Task.unlocks e) && !s.tasks.any (Task.locks e)

/-- Where a thread parks by a call on a registry, and what for. -/
def Operation.parks? : Operation → Option (ThreadId × Hold)
  | .poll id => some (id, .any)
  | .leaveBlocking id hold | .parked id hold => some (id, hold)
  | _ => none

variable {e n : Nat} {task : Task} {tasks : List Task} {r : Reply} {leg : Leg}

theorem Task.locks_of_isOuter (h : task.isOuter e = true) : task.locks e = false := by
  cases task with
  | lockCollector k => simpa [isOuter, isInner, locks] using h
  | blocking hold inner =>
    cases inner with
    | lockCollector k => simpa [isOuter, isInner, locks] using h
    | _ => rfl
  | _ => rfl

theorem Task.unlocks_of_isOuter (h : task.isOuter e = true) : task.unlocks e = false := by
  cases task with
  | unlockCollector k => simpa [isOuter, isInner, unlocks] using h
  | _ => rfl

theorem any_locks_of_isOuter (h : tasks.all (Task.isOuter e) = true) :
    tasks.any (Task.locks e) = false :=
  List.any_eq_false.mpr fun task htask => by
    rw [Task.locks_of_isOuter (List.all_eq_true.mp h task htask)]
    exact Bool.false_ne_true

theorem Course.locks (h : Course e n tasks r leg) : tasks.any (Task.locks e) = false := by
  induction h with
  | passes htask _ ih =>
    rw [List.any_cons, Task.locks_of_isOuter (Task.isOuter_of_isPassing htask), ih .unit]; rfl
  | delivers htask =>
    rcases eq_of_report? htask with ⟨pending, jobs, rfl⟩ | ⟨jobs, rfl⟩ | ⟨jobs, rfl⟩ | ⟨jobs, rfl⟩ |
      rfl <;> rfl
  | _ => rfl

theorem Stands.collects {s : Stack} {leg : Option Leg} (h : Stands e n s leg) :
    s.collects e = leg.isSome := by
  cases h with
  | outside hall =>
    have hno : s.tasks.any (Task.unlocks e) = false := List.any_eq_false.mpr fun task htask => by
      rw [Task.unlocks_of_isOuter (List.all_eq_true.mp hall task htask)]
      exact Bool.false_ne_true
    rw [Stack.collects, hno]
    rfl
  | @waits front rest r hfront hrest =>
    have hlocks : front.any (Task.locks e) = true := by
      cases hfront <;> simp [Task.locks]
    simp [Stack.collects, hlocks]
  | @inside front rest r leg hfront hrest =>
    have hunlocks : (Task.unlockCollector e).unlocks e = true := beq_self_eq_true e
    have hplain : (Task.unlockCollector e).locks e = false ∧ (Task.checkpoint e).locks e = false :=
      ⟨rfl, rfl⟩
    simp [Stack.collects, hfront.locks, any_locks_of_isOuter hrest, hunlocks, hplain]

theorem Course.parks {front : List Task} {hold : Hold}
    (h : Course e n (.registry k op :: front) r leg) (hop : op.parks? = some (id, hold)) :
    hold = .pause := by
  cases h with
  | passes htask =>
    cases op with
    | leaveBlocking _ hold | parked _ hold =>
      cases hop
      cases hold with
      | any => cases htask
      | pause => rfl
    | poll => cases htask
    | _ => cases hop
  | delivers htask => cases htask
  | _ => cases hop

end Holders

namespace World

variable {w : World} {e t ticks : Nat} {told : List Notice} {ends : List Reply}
  {holder : Option (Nat × Leg)}

def collects (w : World) (e t : Nat) : Bool := (w.stackOf t).any (Stack.collects e)

def IsResting (w : World) (e : Nat) : Prop := ∀ t, w.collects e t = false

variable (h : Serial w.floor e told ticks ends holder)

include h

theorem collects_iff : w.collects e t = true ↔ ∃ leg, holder = some (t, leg) := by
  refine ⟨fun hcollects => ?_, ?_⟩
  · obtain ⟨s, hs, hs'⟩ := (Option.any_eq_true _ _).mp hcollects
    rw [(h.stands ((threads_floor t).trans hs)).collects] at hs'
    obtain ⟨leg, hleg⟩ := Option.isSome_iff_exists.mp hs'
    exact ⟨leg, Serial.eq_of_legOf hleg⟩
  · rintro ⟨leg, rfl⟩
    have hlt := h.there rfl
    have hs := Array.getElem?_eq_getElem hlt
    rw [collects, ← threads_floor, hs]
    refine (h.stands hs).collects.trans ?_
    rw [Serial.legOf_self]
    rfl

theorem eq_none_of_isResting (hrests : w.IsResting e) : holder = none := by
  cases holder with
  | none => rfl
  | some holder =>
    have hcollects := (collects_iff h).mpr ⟨holder.2, rfl⟩
    rw [hrests] at hcollects
    cases hcollects

omit h in
/-- Whoever parks for a pause and is not held by one is taken out by its next step. -/
theorem stackOf_of_parks (hd : w.crew.Detained)
    (hs : w.stackOf t = some ⟨.registry k op :: rest, r⟩) (hop : op.parks? = some (id, .pause))
    (hfree : ∀ x, w.engines[k]? = some x → ¬x.registry.Pauses id) :
    (w.move (.step t)).stackOf t = some ⟨rest, r⟩ := by
  have hheld : ∀ {x}, w.engines[k]? = some x → x.registry.holds id .pause = true → False := by
    intro x hx hholds
    obtain ⟨-, -, ⟨hno, -⟩ | hpauses⟩ := Registry.holds_iff.mp hholds
    · cases hno
    · exact hfree x hx hpauses
  cases hx : w.engines[k]? with
  | none => exact (move_of_stackOf hs (runOperation_of_missing hx)).1.trans (stackOf_take hs)
  | some x =>
    have hr : w.crew.registries[k]? = some x.registry := by rw [getElem?_registries_crew, hx]; rfl
    have hawake : ¬x.registry.Detains op := by
      intro hdetains
      cases op with
      | parked =>
        cases hop
        exact hheld hx hdetains
      | leaveBlocking | poll => exact hdetains
      | _ => cases hop
    obtain ⟨expired, r', p, hstep, hstack, -⟩ := exists_operation hd hs hr hawake
    cases Registry.section_of_step hstep with
    | stays hholds | sleepsOn hholds =>
      cases hop
      exact (hheld hx hholds).elim
    | leaves | goesOn => exact hstack
    | misses hmisses => rcases hmisses with rfl | rfl <;> cases hop
    | _ => cases hop

theorem parks_of_serial {hold : Hold}
    (hcollects : w.collects e t = true) (hs : w.stackOf t = some ⟨.registry k op :: rest, r⟩)
    (hop : op.parks? = some (id, hold)) : hold = .pause := by
  obtain ⟨leg, rfl⟩ := (collects_iff h).mp hcollects
  have hstands := h.stands ((threads_floor t).trans hs)
  rw [Serial.legOf_self] at hstands
  generalize hy : (⟨.registry k op :: rest, r⟩ : Stack) = y at hstands
  cases hstands with
  | @inside front back _ leg hfront hback =>
    cases front with
    | nil => cases hy
    | cons first front =>
      obtain ⟨rfl, -⟩ := List.cons.inj ((Stack.mk.inj hy).1.trans (List.cons_append ..))
      exact hfront.parks hop

omit h in
/-- How the collections of an engine follow each other in a run from a world. -/
structure Serializes (w : World) (e : Nat) (moves : List Move) : Prop where
  /-- At most one thread is inside a collection. -/
  exclusive : ∀ {t u : Nat}, (w.after moves).collects e t = true →
    (w.after moves).collects e u = true → t = u
  /-- Whoever is inside a collection has the lock. -/
  locked : ∀ t, (w.after moves).collects e t = true ↔
    ∃ x, (w.after moves).engines[e]? = some x ∧ x.collector.owner = some t
  /-- Reports are numbered from one on, in the order in which collections end. -/
  numbered :
    (reports (w.endings e moves)).map (·.cycle) = List.range' 1 (reports (w.endings e moves)).length
  /-- A collection ends with its report or because the world could not be stopped in time. -/
  ended : ∀ r ∈ w.endings e moves, r.IsEnding
  /-- While nobody collects, the collector is idle, and it and the clock of the heap have counted
  the reports. -/
  rests : ∀ x, (w.after moves).engines[e]? = some x → (w.after moves).IsResting e →
    x.collector = ⟨.idle, (reports (w.endings e moves)).length, none⟩ ∧
      x.heap.clock = (reports (w.endings e moves)).length
  /-- An agent that stays registered is called, in order, with the begin of each collection, and
  with the end of each that has a report. -/
  informs : ∀ {before during : List Move} {agent : Nat}, moves = before ++ during →
    (∀ past, past <+: during → (w.after (before ++ past)).Informs e agent Capabilities.gcEvents) →
    (w.after before).IsResting e →
    (w.after moves).IsResting e → (w.after before).heard e agent Notice.isCycle during =
      script (reports (w.endings e before)).length ((w.after before).endings e during)
  /-- What comes out of the program is what listeners were called with. -/
  shows : (w.agentCalls moves).filterMap AgentCall.note? =
    w.takenNotices moves ++ (w.after moves).output.inOrder.notices
  /-- Whoever is inside a collection parks for a pause only, and goes on when there is none. -/
  parks : ∀ {t k : Nat} {op : Operation} {rest : List Task}
    {r : Reply} {id : ThreadId} {hold : Hold}, (w.after moves).collects e t = true →
    (w.after moves).stackOf t = some ⟨.registry k op :: rest, r⟩ → op.parks? = some (id, hold) →
    hold = .pause ∧ ((∀ x, (w.after moves).engines[k]? = some x → ¬x.registry.Pauses id) →
      (w.after (moves ++ [.step t])).stackOf t = some ⟨rest, r⟩)

theorem ahead_of_isResting (hrests : w.IsResting e) (agent : Nat) : w.floor.ahead e agent = [] := by
  obtain rfl := eq_none_of_isResting h hrests
  rw [Floor.ahead, List.flatMap_eq_nil_iff]
  intro s hs
  obtain ⟨t, ht⟩ := List.getElem?_of_mem hs
  rw [Array.getElem?_toList] at ht
  exact (h.stands ht).ahead_of_none agent

omit h

theorem announced_of_isResting {s : EngineSpec} {label : String} {moves : List Move}
    (hrests : ((start s label).after moves).IsResting e) :
    (start s label).announced e moves = script 0 ((start s label).endings e moves) := by
  obtain ⟨holder, h⟩ := serial_after s label moves e
  obtain rfl := eq_none_of_isResting h hrests
  rw [h.told]
  exact List.append_nil _

/-- **Collections are serialized, and whoever waits for its suspension to end has not the lock.** -/
theorem serializes_after (s : EngineSpec) (label : String) (moves : List Move) (e : Nat) :
    (start s label).Serializes e moves := by
  obtain ⟨holder, h⟩ := serial_after s label moves e
  refine ⟨?_, fun t => (collects_iff h).trans ?_, h.numbered, h.ended, fun x hx hrests => ?_, ?_,
    shows_after s label moves, ?_⟩
  · intro t u ht hu
    obtain ⟨leg, rfl⟩ := (collects_iff h).mp ht
    obtain ⟨leg', hleg'⟩ := (collects_iff h).mp hu
    cases hleg'
    rfl
  · constructor
    · rintro ⟨leg, rfl⟩
      have hboard : ((start s label).after moves).floor.boards[e]? ≠ none := by
        intro hnone
        cases (h.absent hnone).2.1
      obtain ⟨b, hb⟩ := Option.ne_none_iff_exists'.mp hboard
      have hshows := h.shows hb
      rw [boards_floor] at hb
      obtain ⟨x, hx, rfl⟩ := Option.map_eq_some_iff.mp hb
      exact ⟨x, hx, congrArg Collector.owner hshows⟩
    · rintro ⟨x, hx, howner⟩
      have hshows : x.collector = _ := h.shows (Serial.exists_board hx)
      rw [hshows] at howner
      cases holder with
      | none => cases howner
      | some holder =>
        cases howner
        exact ⟨holder.2, rfl⟩
  · obtain rfl := eq_none_of_isResting h hrests
    refine ⟨h.shows (Serial.exists_board hx), ?_⟩
    rw [clock_after s label moves hx]
    exact h.ticks
  · rintro before during agent rfl hagent hbefore hafter
    have hheard := heard_after s label before during hagent
    obtain ⟨holder', h'⟩ := serial_after s label before e
    rw [ahead_of_isResting h hafter, ahead_of_isResting h' hbefore, List.append_nil,
      List.nil_append] at hheard
    have htold := announced_of_isResting hafter
    rw [announced_append, endings_append, script_append, announced_of_isResting hbefore,
      Nat.zero_add] at htold
    exact hheard.trans (List.append_cancel_left htold)
  · intro t k op rest r id hold hcollects hs hop
    obtain rfl := parks_of_serial h hcollects hs hop
    refine ⟨rfl, fun hfree => ?_⟩
    rw [after_append]
    exact stackOf_of_parks (detained_after s label moves) hs hop hfree

end World

end ManagedHeap
