import ManagedHeap.Proofs.Balances
import ManagedHeap.Proofs.Suspensions

/-!
# Calls of agents

**Input.**  A run in which threads tell the agents of engines something.

**Algorithm.**  A dispatch fixes who is to be called.  These agents are called in one step each.  A
listener writes down what it hears, and the engine counts the call in a step after it.

**Results.**  `World.agentCalls_eq`: what comes out of a program is what its listeners were called
with.  `World.delivered_after`: engines count calls.  `World.heard_between`: an agent hears what is
told while it is registered.
-/

namespace ManagedHeap

section Calls

/-- What an agent of an engine hears of notices of a kind when somebody is called. -/
def AgentCall.heard (e agent : Nat) (p : Notice → Bool) (c : AgentCall) : List Notice :=
  if c.engine = e ∧ c.agent.id = agent ∧ p c.notice = true then [c.notice] else []

namespace Task

/-- The engine one of whose agents a task calls, or has called. -/
def callsOn? : Task → Option Nat
  | .deliver e .. | .delivered e => some e
  | _ => none

/-- Whether a task neither calls an agent nor counts a call. -/
def callsNobody (task : Task) : Bool := task.callsOn?.isNone

/-- How many calls of agents of an engine a task counts. -/
def callsToCount (e : Nat) : Task → Nat
  | .delivered k => if k = e then 1 else 0
  | _ => 0

/-- What a task begins to tell the agents of an engine, of notices of a kind. -/
def dispatches (e : Nat) (p : Notice → Bool) : Task → Multiset Notice
  | .dispatch k n => if k = e ∧ p n = true then {n} else 0
  | _ => 0

/-- What an agent of an engine has still to hear of notices of a kind. -/
def noticesFor (e agent : Nat) (p : Notice → Bool) : Task → List Notice
  | .deliver k n recipients =>
    if k = e ∧ p n = true then List.replicate (recipients.countP (·.id == agent)) n else []
  | _ => []

variable {task : Task} {engines : Array Runtime} {t e agent : Nat} {r : Reply}
  {rest tasks : List Task} {a : Option Reply} {c : Notch} {p : Notice → Bool}

theorem callsToCount_of_callsNobody (h : task.callsNobody = true) : task.callsToCount e = 0 := by
  cases task <;> first | rfl | cases h

theorem noticesFor_of_callsNobody (h : task.callsNobody = true) :
    task.noticesFor e agent p = [] := by
  cases task <;> first | rfl | cases h

theorem agentCall?_of_callsNobody (h : task.callsNobody = true) : task.agentCall? = none := by
  cases task <;> first | rfl | cases h

/-- What a task does about calls of agents. -/
inductive Relays (engines : Array Runtime) (task : Task) (tasks : List Task) : Prop
  | nothing (htask : task.callsNobody = true) (htasks : tasks.all callsNobody = true)
      (hnobody : ∀ e n, task = .dispatch e n → engines[e]? = none)
  /-- It is fixed who will be called. -/
  | begins {e : Nat} {n : Notice} {x : Runtime} (htask : task = .dispatch e n)
      (hx : engines[e]? = some x) (htasks : tasks = [.deliver e n (x.agents.recipients n)])
  | calls {e : Nat} {n : Notice} {y : Agent Listener}
      {others : List (Agent Listener)} {gates : List Task}
      (htask : task = .deliver e n (y :: others)) (hgates : gates.all callsNobody = true)
      (htasks : tasks = gates ++ [.delivered e, .deliver e n others])
  | ends {e : Nat} {n : Notice} (htask : task = .deliver e n []) (htasks : tasks = [])
  | counts {e : Nat} (htask : task = .delivered e) (htasks : tasks = [])

theorem callsNobody_of_isPlain (h : task.isPlain = true) (hcount : ∀ e, task ≠ .delivered e) :
    task.callsNobody = true := by
  cases task with
  | deliver => cases h
  | delivered e => exact (hcount e rfl).elim
  | _ => rfl

theorem callsNobody_of_isSide (h : task.isSide = true) : task.callsNobody = true :=
  callsNobody_of_isPlain (isPlain_of_isSide h) (by rintro e rfl; cases h)

theorem callsNobody_of_isProgram (h : task.isProgram = true) : task.callsNobody = true :=
  callsNobody_of_isPlain (isPlain_of_isProgram h) (by rintro e rfl; cases h)

theorem callsNobody_of_isFirst (h : task.isFirst = true) : task.callsNobody = true := by
  cases task <;> first | rfl | cases h

theorem callsNobody_of_blocking {hold : Hold} {inner : Task}
    (hd : (Task.blocking hold inner).Defers rest) : inner.callsNobody = true := by
  cases hold with
  | any => cases inner <;> first | rfl | cases hd
  | pause =>
    obtain ⟨e, reason, more, rfl, -⟩ := hd
    rfl

/-- **Agents are called one after the other, and every call is counted after it.** -/
theorem Produces.relays (h : task.Produces engines t r tasks a c) (hd : task.Defers rest) :
    task.Relays engines tasks := by
  cases h with
  | aside htask htasks =>
    refine .nothing (callsNobody_of_isSide htask) (World.all_imp callsNobody_of_isSide htasks)
      fun e n he => ?_
    subst he
    cases htask
  | proceeds htask htasks =>
    refine .nothing (callsNobody_of_isProgram htask) (World.all_imp callsNobody_of_isProgram htasks)
      fun e n he => ?_
    subst he
    cases htask
  | strays htask he =>
    refine .nothing ?_ rfl fun e n hdispatch => ?_
    · cases task <;> first | rfl | cases htask
    · subst hdispatch
      cases htask
      exact he
  | dispatches hx => exact .begins rfl hx rfl
  | delivers => exact .calls rfl (rfl : [].all callsNobody = true) rfl
  | deliversAtGate => exact .calls rfl (rfl : [Task.gate _].all callsNobody = true) rfl
  | delivered => exact .ends rfl rfl
  | countsDelivery => exact .counts rfl rfl
  | enters =>
    exact .nothing rfl (by rw [List.all_cons, List.all_cons, callsNobody_of_blocking hd]; rfl) nofun
  | nests => exact .nothing rfl (by simp [callsNobody_of_blocking hd]) nofun
  | @operates e op _ x expired registry p hx hstep => exact .nothing rfl (by cases p <;> rfl) nofun
  | passes htask | polls htask => rcases htask with rfl | ⟨id, rfl⟩ <;> exact .nothing rfl rfl nofun
  | refusesObject htask | stores htask =>
    cases task with
    | allocate | attempt | retry => exact .nothing rfl rfl nofun
    | _ => cases htask
  | serves | drains => exact .nothing rfl (by simp [callsNobody, callsOn?]) nofun
  | _ => exact .nothing rfl rfl nofun

theorem Produces.countsCalls (h : task.Produces engines t r tasks a c) (e : Nat) (b : Board) :
    (c.on e b).delivered = b.delivered + task.callsToCount e := by
  by_cases hcounts : ∃ k, task = .delivered k
  · obtain ⟨k, rfl⟩ := hcounts
    cases h with
    | countsDelivery =>
      by_cases hk : k = e <;> simp [Board.countDelivery, callsToCount, hk]
    | _ => first | contradiction | simp_all
  · have hnone : task.callsToCount e = 0 := by
      cases task <;> first | rfl | exact (hcounts ⟨_, rfl⟩).elim
    rw [hnone]
    refine Notch.on_eq (p := Board.delivered) (fun g hg b => ?_) b
    cases h with
    | countsDelivery => exact (hcounts ⟨_, rfl⟩).elim
    | _ => cases hg <;> rfl

end Task

/-- The call of an agent that the next step of a stack makes. -/
def Stack.agentCall? (s : Stack) : Option AgentCall := s.tasks.head?.bind Task.agentCall?

/-- What an agent of an engine has still to hear of notices of a kind from a thread. -/
def Stack.noticesFor (e agent : Nat) (p : Notice → Bool) (s : Stack) : Multiset Notice :=
  (s.tasks.map fun task => (task.noticesFor e agent p : Multiset Notice)).sum

/-- What the next step of a stack begins to tell the agents of an engine, of notices of a kind. -/
def Stack.dispatches (e : Nat) (p : Notice → Bool) (s : Stack) : Multiset Notice :=
  s.tasks.head?.elim 0 (Task.dispatches e p)

/-- How many calls of agents of an engine the next step of a stack counts. -/
def Stack.callsToCount (e : Nat) (s : Stack) : Nat := s.tasks.head?.elim 0 (Task.callsToCount e)

end Calls

section Registrations

variable {f f' : Floor}

/-- Whether the agents of an engine have different numbers, and no number will be given out
again. -/
structure Board.Distinct (b : Board) : Prop where
  nodup : (b.agents.map (·.id)).Nodup
  used : ∀ y ∈ b.agents, y.id < b.nextAgent

variable {b b' : Board} {k : Nat} {task : Task} {r : Reply} {tasks : List Task} {a : Option Reply}
  {c : Notch} {x : Runtime} {agent : Nat}

theorem Board.Distinct.register (h : b.Distinct) (c : Capabilities) (l : Listener) :
    (b.register c l).Distinct where
  nodup := by
    rw [Board.register, List.map_append, List.nodup_append]
    refine ⟨h.nodup, List.nodup_singleton _, fun i hi j hj => ?_⟩
    obtain ⟨y, hy, rfl⟩ := List.mem_map.mp hi
    cases List.mem_singleton.mp hj
    exact (h.used y hy).ne
  used y hy := by
    rcases List.mem_append.mp hy with hy | hy
    · exact Nat.lt_succ_of_lt (h.used y hy)
    · cases List.mem_singleton.mp hy
      exact Nat.lt_succ_self _

theorem Board.Distinct.resign (h : b.Distinct) (i : Nat) : (b.resign i).Distinct where
  nodup := h.nodup.sublist ((List.filter_sublist).map _)
  used y hy := h.used y (List.mem_of_mem_filter hy)

theorem Board.Grows.distinct (h : b.Grows R b') (hb : b.Distinct) : b'.Distinct := by
  induction h with
  | refl => exact hb
  | tail _ opens ih =>
    cases opens with
    | registers c l => exact ih.register c l
    | resigns i => exact ih.resign i
    | resets | hires => exact ⟨ih.nodup, ih.used⟩

theorem Task.Produces.distinct {engines : Array Runtime}
    {t : Nat} (h : task.Produces engines t r tasks a c)
    {g : Board → Board} (hc : c = some (k, g)) (hb : b.Distinct) : (g b).Distinct := by
  cases h with
  | resigns =>
    cases hc
    exact hb.resign _
  | _ =>
    cases hc
    try exact ⟨hb.nodup, hb.used⟩

/-- Whether the agents of each engine have different numbers. -/
def Floor.Distinct (f : Floor) : Prop := ∀ (e : Nat) (b : Board), f.boards[e]? = some b → b.Distinct

theorem Floor.Grows.distinct (h : f.Grows R f') (hf : f.Distinct) : f'.Distinct := by
  intro e b' hb'
  rcases h.board hb' with ⟨b, hb, hgrows⟩ | ⟨-, _, hgrows⟩
  · exact hgrows.distinct (hf e b hb)
  · exact hgrows.distinct ⟨List.nodup_nil, fun y hy => by cases hy⟩

theorem Board.Grows.delivered (h : b.Grows R b') : b'.delivered = b.delivered := by
  induction h with
  | refl => rfl
  | tail _ opens ih => cases opens <;> exact ih

theorem Floor.Grows.delivered (h : f.Grows R f') (e : Nat) :
    (f'.boards[e]?).elim 0 Board.delivered = (f.boards[e]?).elim 0 Board.delivered := by
  cases hb : f'.boards[e]? with
  | none =>
    rw [Array.getElem?_eq_none ((h.size_boards_le).trans (Array.getElem?_eq_none_iff.mp hb))]
  | some b' =>
    rcases h.board hb with ⟨b, hb, hgrows⟩ | ⟨hnone, _, hgrows⟩
    · rw [hb]
      exact hgrows.delivered
    · rw [hnone]
      exact hgrows.delivered

/-- Whether somebody with a capability is registered under a number. -/
def Engine.Informs (x : Runtime) (agent : Nat) (capable : Capabilities → Bool) : Prop :=
  ∃ y ∈ x.agents.registered, y.id = agent ∧ capable y.capabilities = true

theorem countP_recipients {n : Notice} {capable : Capabilities → Bool} (h : x.board.Distinct)
    (hx : x.Informs agent capable)
    (hallow : ∀ c : Capabilities, capable c = true → c.allow n = true) :
    (x.agents.recipients n).countP (·.id == agent) = 1 := by
  obtain ⟨y, hy, rfl, hcapable⟩ := hx
  have hcount : (x.agents.registered.map (·.id)).count y.id = 1 :=
    List.count_eq_one_of_mem h.nodup (List.mem_map_of_mem hy)
  have hle : (x.agents.recipients n).countP (·.id == y.id) ≤ 1 := by
    rw [← hcount, List.count, List.countP_map]
    exact List.filter_sublist.countP_le
  have hpos : 0 < (x.agents.recipients n).countP (·.id == y.id) :=
    List.countP_pos_iff.mpr ⟨y, List.mem_filter.mpr ⟨hy, hallow _ hcapable⟩, by simp⟩
  omega

end Registrations

namespace World

variable {w : World} {m : Move} {t e agent : Nat} {p : Notice → Bool} (s : EngineSpec)
  (label : String) (moves : List Move)

section Output

def agentCalls (w : World) (moves : List Move) : List AgentCall :=
  (w.steps moves).filterMap fun x => x.2.agentCall?

theorem agentCalls_append (moves more : List Move) :
    w.agentCalls (moves ++ more) = w.agentCalls moves ++ (w.after moves).agentCalls more := by
  rw [agentCalls, steps_append, List.filterMap_append]
  rfl

theorem agentCalls_singleton (m : Move) :
    w.agentCalls [m] = ((w.taken m).bind Stack.agentCall?).toList := by
  rw [agentCalls, steps, steps, List.append_nil]
  cases w.taken m with
  | none => rfl
  | some x => cases h : x.agentCall? <;> simp [h]

/-- What an agent of an engine hears of notices of a kind along moves, in order. -/
def heard (w : World) (e agent : Nat) (p : Notice → Bool) (moves : List Move) : List Notice :=
  (w.agentCalls moves).flatMap (AgentCall.heard e agent p)

/-- **Listeners write down what they are called with**, and nothing else is written there. -/
theorem notices_move (hm : m ≠ .takeOutput) : (w.move m).output.notices =
    (((w.taken m).bind Stack.agentCall?).bind AgentCall.note?).toList ++ w.output.notices := by
  cases m with
  | step t =>
    cases h : w.step t with
    | none =>
      rw [taken, move, h]
      rfl
    | some w' =>
      obtain ⟨x, task, rest, after, hx, htasks, hrun, rfl⟩ := exists_task_of_step h
      have hs : w.stackOf t = some ⟨task :: rest, x.reply⟩ := by
        rw [stackOf, hx, Option.map_some, Thread.stack, htasks]
      have htaken := (taken_of_some (by rw [h]; rfl)).trans hs
      rw [htaken, move, h]
      show after.view.notices = _
      by_cases hperform : ∃ i, task = .perform i
      · obtain ⟨i, rfl⟩ := hperform
        cases hrun
        obtain ⟨tasks, a, f, -, hgrows, hf⟩ := begins_perform i
        rw [hf]
        exact hgrows.notices
      · obtain ⟨r, tasks, a, c, -, -, hf⟩ := rewrites_runTask (fun i hi => hperform ⟨i, hi⟩) hrun
        rw [hf]
        rfl
  | call name =>
    simp only [move, threadNamed]
    split <;> rfl
  | instruct t number timed i =>
    simp only [move]
    split <;> rfl
  | takeOutput => exact (hm rfl).elim
  | _ => rfl

/-- The notices in the output that is taken along moves, in order. -/
def takenNotices (w : World) : List Move → List (String × Notice)
  | [] => []
  | .takeOutput :: rest => w.takeOutput.1.notices ++ (w.move .takeOutput).takenNotices rest
  | m :: rest => (w.move m).takenNotices rest

/-- **What comes out of a program is what its listeners were called with**, in that order. -/
theorem agentCalls_eq (w : World) (moves : List Move) :
    w.output.inOrder.notices ++ (w.agentCalls moves).filterMap AgentCall.note? =
      w.takenNotices moves ++ (w.after moves).output.inOrder.notices := by
  induction moves generalizing w with
  | nil => exact List.append_nil _
  | cons m rest ih =>
    have hcalls : w.agentCalls (m :: rest) = w.agentCalls [m] ++ (w.move m).agentCalls rest :=
      agentCalls_append [m] rest
    rw [hcalls, agentCalls_singleton, List.filterMap_append, ← List.append_assoc]
    by_cases hm : m = .takeOutput
    · subst hm
      have hnone : (w.taken .takeOutput).bind Stack.agentCall? = none := rfl
      have hrest := congrArg (w.takeOutput.1.notices ++ ·) (ih (w.move .takeOutput))
      rw [takenNotices, hnone, List.append_assoc w.takeOutput.1.notices, List.append_assoc]
      exact hrest
    · have hmove : (w.move m).output.inOrder.notices = w.output.inOrder.notices ++
          (((w.taken m).bind Stack.agentCall?).toList).filterMap AgentCall.note? := by
        show (w.move m).output.notices.reverse = _
        rw [notices_move hm, List.reverse_append]
        refine congrArg (w.output.notices.reverse ++ ·) ?_
        cases (w.taken m).bind Stack.agentCall? with
        | none => rfl
        | some c => cases hc : c.note? <;> simp [hc]
      have htaken : w.takenNotices (m :: rest) = (w.move m).takenNotices rest := by
        cases m <;> first | rfl | exact (hm rfl).elim
      rw [← hmove, htaken]
      exact ih (w.move m)

theorem shows_after : ((start s label).agentCalls moves).filterMap AgentCall.note? =
    (start s label).takenNotices moves ++ ((start s label).after moves).output.inOrder.notices := by
  have hnone : (start s label).output.notices = [] := (view_start s label).notices
  have hall := agentCalls_eq (start s label) moves
  rwa [Output.inOrder, hnone] at hall

end Output

section Counter

theorem isKept_callsOn : IsKept (start s label) fun past task _ =>
    ∀ e, task.callsOn? = some e → e < ((start s label).after past).engines.size where
  mono h e he := (h e he).trans_le (size_engines_le_after _ _)
  serve _ _ := nofun
  perform _ _ := nofun
  opening := by
    intro past t i rest tasks h _ hrest
    replace hrest :=
      hrest.imp fun _ _ h e he => (h e he).trans_le (size_engines_le_after past (.step t))
    refine hrest.append_of_free (fun task _ htask e he => ?_) h.all_isFirst
    have hnobody := Task.callsNobody_of_isFirst htask
    rw [Task.callsNobody, he] at hnobody
    cases hnobody
  produces := by
    intro past t task rest tasks r a c hs h htask hrest
    have hfree : ∀ (task : Task) (_ : List Task), task.callsNobody = true → ∀ e,
        task.callsOn? = some e → e < ((start s label).after (past ++ [.step t])).engines.size := by
      intro task _ hnobody e he
      rw [Task.callsNobody, he] at hnobody
      cases hnobody
    have hle := size_engines_le_after (w := start s label) past (.step t)
    replace hrest := hrest.imp fun _ _ h e he => (h e he).trans_le hle
    cases h.relays (arranged_after (isKept_defers (start s label)) past _ hs).1 with
    | nothing _ htasks => exact hrest.append_of_free hfree htasks
    | @begins e n x _ hx htasks =>
      subst htasks
      refine ⟨?_, hrest⟩
      rintro _ ⟨⟩
      exact (Array.getElem?_eq_some_iff.mp hx).1.trans_le hle
    | @calls e _ _ _ _ htask' hgates htasks =>
      subst htask' htasks
      have hthere := (htask e rfl).trans_le hle
      rw [List.append_assoc]
      refine Arranged.append_of_free hfree hgates ⟨?_, ?_, hrest⟩ <;> rintro _ ⟨⟩ <;> exact hthere
    | ends _ htasks | counts _ htasks =>
      subst htasks
      exact hrest

theorem counted_after (e : Nat) :
    (((start s label).after moves).floor.boards[e]?).elim 0 Board.delivered =
      (((start s label).steps moves).map fun x => x.2.callsToCount e).sum := by
  induction moves using List.reverseRecOn with
  | nil =>
    have hnone : ({} : World).floor.boards[e]? = none := by simp [floor]
    refine ((floor_start s label).delivered e).trans ?_
    rw [hnone]
    rfl
  | append_singleton moves m ih =>
    have hdefined := fun {t} => arranged_after (t := t) (isKept_callsOn s label) moves
    rw [sum_steps_snoc, ← ih, after_append]
    show (((start s label).after moves).move m).floor.boards[e]?.elim _ _ = _
    generalize (start s label).after moves = w at hdefined ⊢
    have hmove := rearranges_move w m
    generalize (w.move m).floor = f at hmove
    cases hmove with
    | rests hrests =>
      rw [taken_of_none hrests]
      rfl
    | comes | instructs => rfl
    | @steps t task rest tasks r a c hstep hs hproduces =>
      rw [taken_of_some hstep, hs, Floor.boards_alter, Floor.boards_put]
      cases hb : w.floor.boards[e]? with
      | some b => exact hproduces.countsCalls e b
      | none =>
        -- nobody counts calls for an engine that is not there
        have hzero : task.callsToCount e = 0 := by
          cases task with
          | delivered k =>
            refine if_neg fun hk => ?_
            subst hk
            rw [boards_floor, Option.map_eq_none_iff, Array.getElem?_eq_none_iff] at hb
            exact Nat.not_lt.mpr hb ((hdefined _ hs).1 k rfl)
          | _ => rfl
        exact hzero.symm.trans (Nat.zero_add _).symm
    | @performs t i rest tasks r a f hstep hs _ hf =>
      rw [taken_of_some hstep, hs]
      exact hf.delivered e

theorem balanced_callsToCount (e : Nat) :
    (start s label).Balanced (fun x => (x.tasks.map (Task.callsToCount e)).sum)
    (fun x => x.2.agentCall?.elim 0 fun c => if c.engine = e then 1 else 0) fun x =>
    x.2.callsToCount e := by
  have hzero : ∀ task : Task, task.callsNobody = true → task.callsToCount e = 0 :=
    fun _ => Task.callsToCount_of_callsNobody
  have hnobody : ∀ {tasks : List Task}, tasks.all Task.callsNobody = true →
      (tasks.map (Task.callsToCount e)).sum = 0 := sum_eq_zero_of_all hzero
  refine balanced_of_tasks (fun _ => rfl) (fun _ => rfl) (fun _ h =>
    hzero _ (Task.callsNobody_of_isFirst h)) rfl ?_
  intro past t task rest tasks r a c hs h
  cases h.relays (arranged_after (isKept_defers (start s label)) past _ hs).1 with
  | nothing htask htasks =>
    simp [Stack.agentCall?, Task.agentCall?_of_callsNobody htask, Stack.callsToCount,
      hnobody htasks]
  | begins htask _ htasks | ends htask htasks | counts htask htasks =>
    subst htask htasks
    simp [Stack.agentCall?, Task.agentCall?, Stack.callsToCount, Task.callsToCount]
  | calls htask hgates htasks =>
    subst htask htasks
    rw [List.map_append, List.sum_append, hnobody hgates]
    simp [Stack.agentCall?, Task.agentCall?, Stack.callsToCount, Task.callsToCount]

theorem sum_agentCalls {M : Type} [AddCommMonoid M] (g : AgentCall → M)
    (w : World) (moves : List Move) : ((w.agentCalls moves).map g).sum =
      ((w.steps moves).map fun x => x.2.agentCall?.elim 0 g).sum := by
  unfold agentCalls
  induction w.steps moves with
  | nil => rfl
  | cons x rest ih =>
    rw [List.filterMap_cons, List.map_cons, List.sum_cons, ← ih]
    cases x.2.agentCall? with
    | none => exact (zero_add _).symm
    | some c => rfl

/-- **An engine counts the calls of its agents**, each after it was made. -/
theorem delivered_after {x : Runtime} (hx : ((start s label).after moves).engines[e]? = some x) :
    ((start s label).agentCalls moves).countP (·.engine == e) = x.agents.delivered +
      ((start s label).after moves).load fun x => (x.tasks.map (Task.callsToCount e)).sum := by
  have hcounted := counted_after s label moves e
  rw [boards_floor, hx] at hcounted
  have hsum := (balanced_callsToCount s label e).after moves
  rw [← sum_agentCalls] at hsum
  have hcount : ∀ calls : List AgentCall, calls.countP (·.engine == e) =
      (calls.map fun c => if c.engine = e then 1 else 0).sum := by
    intro calls
    induction calls with
    | nil => rfl
    | cons c rest ih => simp [List.countP_cons, ih, Nat.add_comm]
  rw [hcount, hsum, ← hcounted]
  rfl

end Counter

section Hearing

variable {capable : Capabilities → Bool}

theorem distinct_move (m : Move) (h : w.floor.Distinct) : (w.move m).floor.Distinct := by
  have hmove := rearranges_move w m
  generalize (w.move m).floor = f at hmove
  cases hmove with
  | rests | comes | instructs => exact h
  | @steps t task rest tasks r a c hstep hs hproduces =>
    intro e b' hb'
    cases c with
    | none => exact h e b' hb'
    | some c =>
      obtain ⟨b, hb, rfl | ⟨-, rfl⟩⟩ := Floor.boards_modifyBoard hb'
      · exact h e _ hb
      · exact hproduces.distinct rfl (h e b hb)
  | @performs t i rest tasks r a f hstep hs hopening hf =>
    have hgrown : f.Distinct := hf.distinct h
    exact hgrown

/-- **The agents of an engine have different numbers.** -/
theorem distinct_after (s : EngineSpec) (label : String) (moves : List Move) :
    ((start s label).after moves).floor.Distinct := by
  induction moves using List.reverseRecOn with
  | nil => exact (floor_start s label).distinct fun e b hb => by simp [floor] at hb
  | append_singleton moves m ih =>
    rw [after_append]
    exact distinct_move m ih

/-- Whether an agent with a capability is registered under a number. -/
def Informs (w : World) (e agent : Nat) (capable : Capabilities → Bool) : Prop :=
  ∃ x, w.engines[e]? = some x ∧ x.Informs agent capable

/-- What an agent of an engine is to hear of notices of a kind when a step fixes who will be
called. -/
def addresses (e agent : Nat) (p : Notice → Bool) (x : World × Stack) : Multiset Notice :=
  match x.2.tasks with
  | .dispatch k n :: _ =>
    if k = e ∧ p n = true then
      Multiset.replicate (((x.1.engines[e]?).elim [] (·.agents.recipients n)).countP (·.id ==
          agent)) n
    else 0
  | _ => 0

theorem balanced_noticesFor (e agent : Nat) (p : Notice → Bool) :
    (start s label).Balanced (Stack.noticesFor e agent p) (addresses e agent p) fun x =>
    x.2.agentCall?.elim 0 fun c => (c.heard e agent p : Multiset Notice) := by
  have hzero : ∀ task : Task, task.callsNobody = true →
      (task.noticesFor e agent p : Multiset Notice) = 0 :=
    fun _ h => by rw [Task.noticesFor_of_callsNobody h]; rfl
  have hnobody : ∀ {tasks : List Task}, tasks.all Task.callsNobody = true →
      (tasks.map fun task => (task.noticesFor e agent p : Multiset Notice)).sum = 0 :=
    sum_eq_zero_of_all hzero
  refine balanced_of_tasks (fun _ => rfl) (fun _ => rfl) (fun _ h =>
    hzero _ (Task.callsNobody_of_isFirst h)) rfl ?_
  intro past t task rest tasks r a c hs h
  cases h.relays (arranged_after (isKept_defers (start s label)) past _ hs).1 with
  | nothing htask htasks hnone =>
    have hzero : addresses e agent p ((start s label).after past, ⟨task :: rest, r⟩) = 0 := by
      cases task with
      | dispatch k n =>
        refine ite_eq_right_iff.mpr ?_
        rintro ⟨rfl, -⟩
        rw [hnone k n rfl]
        rfl
      | _ => rfl
    rw [hzero, hnobody htasks, Task.noticesFor_of_callsNobody htask, Stack.agentCall?]
    simp [Task.agentCall?_of_callsNobody htask]
  | @begins k n x htask hx htasks =>
    subst htask htasks
    by_cases hk : k = e ∧ p n = true
    · obtain ⟨rfl, hn⟩ := hk
      simp [addresses, hn, hx, Task.noticesFor, Stack.agentCall?, Task.agentCall?,
        Multiset.coe_replicate]
    · simp [addresses, hk, Task.noticesFor, Stack.agentCall?, Task.agentCall?]
  | @calls k n y others gates htask hgates htasks =>
    subst htask htasks
    rw [List.map_append, List.sum_append, hnobody hgates]
    by_cases hk : k = e ∧ p n = true
    · obtain ⟨rfl, hn⟩ := hk
      by_cases hy : y.id = agent <;> simp [addresses, hn, hy, Task.noticesFor, Stack.agentCall?,
        Task.agentCall?, AgentCall.heard, List.replicate_succ]
    · have hno : ¬(k = e ∧ y.id = agent ∧ p n = true) := fun h => hk ⟨h.1, h.2.2⟩
      simp [addresses, hk, hno, Task.noticesFor, Stack.agentCall?, Task.agentCall?, AgentCall.heard]
  | ends htask htasks | counts htask htasks =>
    subst htask htasks
    simp [addresses, Task.noticesFor, Stack.agentCall?, Task.agentCall?]

theorem coe_heard (w : World) (moves : List Move) :
    (w.heard e agent p moves : Multiset Notice) = ((w.steps moves).map fun x =>
      x.2.agentCall?.elim 0 fun c => (c.heard e agent p : Multiset Notice)).sum := by
  rw [← sum_agentCalls (fun c => (c.heard e agent p : Multiset Notice)), heard]
  induction w.agentCalls moves with
  | nil => rfl
  | cons c rest ih => rw [List.flatMap_cons, ← Multiset.coe_add, ih, List.map_cons, List.sum_cons]

theorem exists_prefix_of_mem_steps {x : World × Stack} (h : x ∈ w.steps moves) :
    ∃ past, past <+: moves ∧ x.1 = w.after past := by
  induction moves generalizing w with
  | nil => cases h
  | cons m rest ih =>
    rcases List.mem_append.mp h with h | h
    · obtain ⟨y, -, rfl⟩ := Option.map_eq_some_iff.mp (Option.mem_toList.mp h)
      exact ⟨[], List.nil_prefix, rfl⟩
    · obtain ⟨past, hpast, hx⟩ := ih h
      exact ⟨m :: past, List.cons_prefix_cons.mpr ⟨rfl, hpast⟩, hx⟩

theorem addresses_of_informs (hdistinct : w.floor.Distinct)
    (hagent : w.Informs e agent capable)
    (hallow : ∀ n c, p n = true → capable c = true → Capabilities.allow c n = true) (y : Stack) :
    addresses e agent p (w, y) = y.dispatches e p := by
  obtain ⟨x, hx, hinforms⟩ := hagent
  obtain ⟨tasks, r⟩ := y
  cases tasks with
  | nil => rfl
  | cons task rest =>
    cases task with
    | dispatch k n =>
      refine if_ctx_congr Iff.rfl (fun hk => ?_) fun _ => rfl
      have hboard : w.floor.boards[e]? = some x.board := by rw [boards_floor, hx]; rfl
      have hone := countP_recipients (hdistinct e _ hboard) hinforms fun c => hallow n c hk.2
      rw [hx, Option.elim_some, hone, Multiset.replicate_one]
    | _ => rfl

/-- **An agent that stays registered hears once of what is told meanwhile**, of what it was to hear
of before, and of nothing else. -/
theorem heard_between
    (hallow : ∀ n c, p n = true → capable c = true → Capabilities.allow c n = true)
    (before during : List Move) (hagent : ∀ past, past <+: during →
      ((start s label).after (before ++ past)).Informs e agent capable) :
    ((start s label).after before).load (Stack.noticesFor e agent p) +
      ((((start s label).after before).steps during).map fun x => x.2.dispatches e p).sum =
      (((start s label).after before).heard e agent p during : Multiset Notice) +
      ((start s label).after (before ++ during)).load (Stack.noticesFor e agent p) := by
  have hbalance := (balanced_noticesFor s label e agent p).between before during
  have hsame : (((start s label).after before).steps during).map (addresses e agent p) =
      (((start s label).after before).steps during).map fun x => x.2.dispatches e p := by
    refine List.map_congr_left fun x hx => ?_
    obtain ⟨past, hpast, hworld⟩ := exists_prefix_of_mem_steps during hx
    rw [← after_append] at hworld
    obtain ⟨v, y⟩ := x
    subst hworld
    exact addresses_of_informs (distinct_after s label _) (hagent past hpast) hallow y
  rw [← coe_heard, hsame] at hbalance
  exact hbalance

end Hearing

end World

end ManagedHeap
