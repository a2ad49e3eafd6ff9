import ManagedHeap.Proofs.Attempts

/-!
# Who hears a notice

**Input.**  Agents that register, unregister and dispatch notices, also while they are called, and a
run in which a thread tells the agents of an engine something.

**Algorithm.**  A dispatch begins with a list of those to whom it goes, and calls them one after the
other.  Whatever agents do meanwhile, to the registry or by dispatches of their own, leaves that
list alone.

**Results.**  `World.tellsAgents_all`: a dispatch goes exactly to those who were registered and
allowed to hear of it when it began, numbers of agents are used once, deliveries are counted, and
who may not suspend threads does not touch them.
-/

namespace ManagedHeap

namespace Agents

variable {β : Type}

/-- What is written down about dispatches: the number of the next one, and who was called with what
in which one. -/
structure Minutes (β : Type) where
  next : Nat := 0
  heard : List (Nat × Agent β × Notice) := []

def Minutes.of (m : Minutes β) (k : Nat) : List (Agent β × Notice) :=
  (m.heard.filter (·.1 = k)).map Prod.snd

def note (k : Nat) (agent : Agent β) (n : Notice) (s : Agents β × Minutes β) :
    Agents β × Minutes β :=
  (s.1, { s.2 with heard := s.2.heard ++ [(k, agent, n)] })

/-- A dispatch under its own number: who is called is written down, and then does what it does. -/
def convene (call : Agent β → Notice → Agents β × Minutes β → Agents β × Minutes β) (n : Notice)
    (s : Agents β × Minutes β) : Agents β × Minutes β :=
  dispatch (fun agent n s' => call agent n (note s.2.next agent n s')) n
    (s.1, { s.2 with next := s.2.next + 1 })

/-- What the program can do with agents, one thing after the other.  Agents that are called can do
the same. -/
inductive Uses : Agents β × Minutes β → Agents β × Minutes β → Prop
  | rests (s : Agents β × Minutes β) : Uses s s
  | registers {s : Agents β × Minutes β} {a : Agents β} {m : Minutes β} (h : Uses s (a, m))
      (c : Capabilities) (body : β) : Uses s ((a.register c body).2, m)
  | unregisters {s : Agents β × Minutes β} {a : Agents β} {m : Minutes β} (h : Uses s (a, m))
      (id : Nat) : Uses s ((a.unregister id).2, m)
  | dispatches {s s' : Agents β × Minutes β}
      {call : Agent β → Notice → Agents β × Minutes β → Agents β × Minutes β} (h : Uses s s')
      (hcall : ∀ agent n s, Uses s (call agent n s)) (n : Notice) : Uses s (convene call n s')

/-- Whether agents have increasing numbers, and neither these nor those of dispatches will be given
out again. -/
structure Sound (s : Agents β × Minutes β) : Prop where
  sorted : s.1.registered.Pairwise (·.id < ·.id)
  used : ∀ agent ∈ s.1.registered, agent.id < s.1.nextId
  numbered : ∀ x ∈ s.2.heard, x.1 < s.2.next

/-- What can have happened since a moment, with calls of the dispatches that were going on then. -/
structure Since (own : Nat → List (Agent β × Notice)) (s s' : Agents β × Minutes β) : Prop where
  sound : Sound s → Sound s'
  ids : s.1.nextId ≤ s'.1.nextId
  /-- Whoever is new has a new number. -/
  known : ∀ agent ∈ s'.1.registered, agent ∈ s.1.registered ∨ s.1.nextId ≤ agent.id
  numbers : s.2.next ≤ s'.2.next
  calls : ∀ k < s.2.next, s'.2.of k = s.2.of k ++ own k
  /-- Whoever was called is counted. -/
  counts : s'.1.delivered + s.2.heard.length = s.1.delivered + s'.2.heard.length

variable {own own' : Nat → List (Agent β × Notice)} {s s' s'' : Agents β × Minutes β}
  {call : Agent β → Notice → Agents β × Minutes β → Agents β × Minutes β}

theorem Since.refl (s : Agents β × Minutes β) : Since (fun _ => []) s s :=
  ⟨id, le_rfl, fun _ => .inl, le_rfl, fun _ _ => (List.append_nil _).symm, rfl⟩

theorem Since.trans (h : Since own s s') (h' : Since own' s' s'') :
    Since (fun k => own k ++ own' k) s s'' where
  sound hs := h'.sound (h.sound hs)
  ids := h.ids.trans h'.ids
  known agent hagent :=
    (h'.known agent hagent).elim (h.known agent) fun hnew => .inr (h.ids.trans hnew)
  numbers := h.numbers.trans h'.numbers
  calls k hk := by rw [h'.calls k (hk.trans_le h.numbers), h.calls k hk, List.append_assoc]
  counts := by
    have := h.counts
    have := h'.counts
    omega

variable (hcall : ∀ agent n s, Since (fun _ => []) s (call agent n s))

include hcall

theorem since_call (agent : Agent β) (n : Notice) (hk : k < s.2.next) :
    Since (fun j => if j = k then [(agent, n)] else []) s
      ((call agent n (note k agent n s)).1.countDelivery, (call agent n (note k agent n s)).2) where
  sound hs := by
    have hnoted : Sound (note k agent n s) := by
      refine ⟨hs.sorted, hs.used, fun x hx => ?_⟩
      rcases List.mem_append.mp hx with hx | hx
      · exact hs.numbered x hx
      · cases List.mem_singleton.mp hx
        exact hk
    have hsound := (hcall agent n (note k agent n s)).sound hnoted
    exact ⟨hsound.sorted, hsound.used, hsound.numbered⟩
  ids := (hcall agent n (note k agent n s)).ids
  known := (hcall agent n (note k agent n s)).known
  numbers := (hcall agent n (note k agent n s)).numbers
  calls j hj := by
    rw [(hcall agent n (note k agent n s)).calls j hj, List.append_nil]
    by_cases hjk : j = k <;> simp [Minutes.of, note, hjk, eq_comm]
  counts := by
    have hcounts := (hcall agent n (note k agent n s)).counts
    simp only [note, List.length_append, List.length_singleton] at hcounts
    simp only [note, countDelivery]
    omega

theorem since_foldl (n : Notice) (recipients : List (Agent β)) (hk : k < s.2.next) :
    Since (fun j => if j = k then recipients.map (·, n) else []) s
    (recipients.foldl (fun s agent => ((call agent n (note k agent n s)).1.countDelivery,
      (call agent n (note k agent n s)).2)) s) := by
  induction recipients generalizing s with
  | nil => simpa using Since.refl s
  | cons agent recipients ih =>
    have hfirst := since_call hcall agent n hk
    have hrest := hfirst.trans (ih (hk.trans_le hfirst.numbers))
    have hown :
        (fun j => (if j = k then [(agent, n)] else []) ++ if j = k then recipients.map (·, n)
          else []) = fun j => if j = k then (agent :: recipients).map (·, n) else [] := by
      funext j
      split <;> rfl
    rwa [hown] at hrest

theorem since_opened (n : Notice) :
    Since (fun j => if j = s.2.next then (s.1.recipients n).map (·, n)
      else []) (s.1, { s.2 with next := s.2.next + 1 }) (convene call n s) :=
  since_foldl (s := (s.1, { s.2 with next := s.2.next + 1 })) hcall n (s.1.recipients n)
    (Nat.lt_succ_self _)

/-- **A dispatch leaves those that are going on alone** … -/
theorem since_convene (n : Notice) : Since (fun _ => []) s (convene call n s) where
  sound hs := by
    refine (since_opened hcall n).sound ⟨hs.sorted, hs.used, fun x hx => ?_⟩
    exact (hs.numbered x hx).trans (Nat.lt_succ_self _)
  ids := (since_opened hcall n).ids
  known := (since_opened hcall n).known
  numbers := (Nat.le_succ _).trans (since_opened hcall n).numbers
  calls k hk := by
    refine ((since_opened hcall n).calls k (hk.trans (Nat.lt_succ_self _))).trans ?_
    rw [if_neg hk.ne]
    rfl
  counts := (since_opened hcall n).counts

/-- … **and goes to those who are registered and allowed to hear.** -/
theorem of_convene (n : Notice) (hs : Sound s) :
    (convene call n s).2.of s.2.next = (s.1.recipients n).map (·, n) := by
  have hnone : s.2.of s.2.next = [] := by
    refine List.map_eq_nil_iff.mpr (List.filter_eq_nil_iff.mpr fun x hx => ?_)
    simpa using (hs.numbered x hx).ne
  refine ((since_opened hcall n).calls s.2.next (Nat.lt_succ_self _)).trans ?_
  rw [if_pos rfl]
  exact congrArg (· ++ _) hnone

omit hcall

theorem since_register (a : Agents β) (m : Minutes β) (c : Capabilities) (body : β) :
    Since (fun _ => []) (a, m) ((a.register c body).2, m) where
  sound hs :=
    { sorted := by
        refine List.pairwise_append.mpr ⟨hs.sorted, List.pairwise_singleton .., fun x hx y hy => ?_⟩
        cases List.mem_singleton.mp hy
        exact hs.used x hx
      used := fun y hy => by
        rcases List.mem_append.mp hy with hy | hy
        · exact (hs.used y hy).trans (Nat.lt_succ_self _)
        · cases List.mem_singleton.mp hy
          exact Nat.lt_succ_self _
      numbered := hs.numbered }
  ids := Nat.le_succ _
  known y hy := by
    rcases List.mem_append.mp hy with hy | hy
    · exact .inl hy
    · cases List.mem_singleton.mp hy
      exact .inr le_rfl
  numbers := le_rfl
  calls _ _ := (List.append_nil _).symm
  counts := rfl

theorem since_unregister (a : Agents β) (m : Minutes β) (id : Nat) :
    Since (fun _ => []) (a, m) ((a.unregister id).2, m) where
  sound hs :=
    { sorted := hs.sorted.filter _
      used := fun y hy => hs.used y (List.mem_of_mem_filter hy)
      numbered := hs.numbered }
  ids := le_rfl
  known _ hy := .inl (List.mem_of_mem_filter hy)
  numbers := le_rfl
  calls _ _ := (List.append_nil _).symm
  counts := rfl

theorem Uses.since (h : Uses s s') : Since (fun _ => []) s s' := by
  induction h with
  | rests s => exact .refl s
  | @registers s a m _ c body ih => exact ih.trans (since_register a m c body)
  | @unregisters s a m _ id ih => exact ih.trans (since_unregister a m id)
  | dispatches _ _ n ih hcall => exact ih.trans (since_convene hcall n)

theorem sound_of_uses (h : Uses ({}, {}) s) : Sound s :=
  h.since.sound ⟨.nil, nofun, nofun⟩

/-- Whoever has the number one removes the next agent and registers another one while it is
called. -/
def meddle (agent : Agent Unit) (_ : Notice) (s : Agents Unit × Minutes Unit) :
    Agents Unit × Minutes Unit :=
  if agent.id = 1 then (((s.1.unregister 2).2.register .all ()).2, s.2) else s

-- who was removed hears the notice all the same, and who is new does not
example :
    let s := convene meddle (.gcStarted 1)
        (((({} : Agents Unit).register .all ()).2.register .all ()).2, {})
    (s.2.of 0).map (·.1.id) = [1, 2] ∧ s.1.registered.map (·.id) = [1, 3] ∧ s.1.delivered = 2 := by
      decide

end Agents

/-- The agent through whose handle an instruction is a call. -/
def Instruction.agent? : Instruction → Option String
  | .agentInfo a | .dropAgent a | .agentThreads a => some a
  | .agentSuspend a _ | .agentResume a _ | .agentThreadInfo a _ | .agentAwait a _ _ => some a
  | _ => none

/-- What stands on the stack of a thread while it tells agents something, and those who are still to
be called. -/
inductive Telling (e : Nat) (n : Notice) (others : List (Agent Listener)) : List Task → Prop
  | calls : Telling e n others [.deliver e n others]
  | counts : Telling e n others [.delivered e, .deliver e n others]
  | waits {gate : String} : Telling e n others [.gate gate, .delivered e, .deliver e n others]

def Task.callee (e : Nat) (n : Notice) : Task → List (Agent Listener)
  | .deliver k n' (a :: _) => if k = e ∧ n' = n then [a] else []
  | _ => []

namespace World

variable {w : World} {t e : Nat} {n : Notice} {rest front : List Task} {r : Reply}
  {others : List (Agent Listener)}

def callee (w : World) (t e : Nat) (n : Notice) : Move → List (Agent Listener)
  | .step u => if u = t then (w.nextTask t).elim [] (Task.callee e n) else []
  | _ => []

/-- The agents that a thread calls in moves, in order. -/
def called (w : World) (t e : Nat) (n : Notice) : List Move → List (Agent Listener)
  | [] => []
  | m :: rest => w.callee t e n m ++ (w.move m).called t e n rest

theorem called_append (moves more : List Move) :
    w.called t e n (moves ++ more) = w.called t e n moves ++ (w.after moves).called t e n more := by
  induction moves generalizing w with
  | nil => rfl
  | cons m rest ih => rw [List.cons_append, called, called, ih, List.append_assoc]; rfl

theorem step_of_gate (hs : w.stackOf t = some ⟨.gate gate :: rest, r⟩)
    (hclosed : ¬w.openGates.contains gate = true) : w.step t = none := by
  obtain ⟨x, hx, htasks, -⟩ := exists_thread_of_stackOf hs
  simp only [step, hx, htasks, runTask]
  rw [show (w.take t rest).passGate gate = none from if_neg hclosed]
  rfl

theorem telling_move (h : Telling e n others front) (hs : w.stackOf t = some ⟨front ++ rest, r⟩)
    (m : Move) : (∃ front' others', (w.move m).stackOf t = some ⟨front' ++ rest, r⟩ ∧
      Telling e n others' front' ∧ w.callee t e n m ++ others' = others) ∨
    (w.move m).stackOf t = some ⟨rest, r⟩ ∧ w.callee t e n m = others := by
  by_cases hm : m = .step t
  · subst hm
    have hcallee : w.callee t e n (.step t) = (w.nextTask t).elim [] (Task.callee e n) := if_pos rfl
    cases h with
    | calls =>
      have htaken := stackOf_take hs
      rw [hcallee, nextTask_of_stackOf hs, (move_of_stackOf hs rfl).1]
      cases others with
      | nil => exact .inr ⟨htaken, rfl⟩
      | cons a others =>
        refine .inl ⟨_, others, stackOf_push (show stackOf _ t = some ⟨rest, r⟩ from ?_) _, ?_, ?_⟩
        · split <;> exact htaken
        · split
          · split
            · exact .waits
            · exact .counts
          · exact .counts
        · exact congrArg (· ++ others) (if_pos ⟨rfl, rfl⟩)
    | counts =>
      rw [hcallee, nextTask_of_stackOf hs, (move_of_stackOf hs rfl).1]
      exact .inl ⟨_, others, stackOf_take hs, .calls, rfl⟩
    | @waits gate =>
      rw [hcallee, nextTask_of_stackOf hs]
      by_cases hopen : w.openGates.contains gate = true
      · rw [(move_of_stackOf hs (if_pos hopen)).1]
        exact .inl ⟨_, others, stackOf_take hs, .counts, rfl⟩
      · refine .inl ⟨_, others, Eq.trans ?_ hs, .waits, rfl⟩
        rw [move, step_of_gate hs hopen]
        rfl
  · have hnone : w.callee t e n m = [] := by
      cases m with
      | step u => exact if_neg fun hu => hm (congrArg Move.step hu)
      | _ => rfl
    obtain ⟨task, tail, rfl, htask⟩ : ∃ task tail, front = task :: tail ∧
        ∀ i, task ≠ .perform i := by
      cases h <;> exact ⟨_, _, rfl, fun _ h => by cases h⟩
    cases continues_move hs htask m with
    | rests _ hs' => exact .inl ⟨task :: tail, others, hs', h, by rw [hnone]; rfl⟩
    | steps hm' => exact (hm hm').elim

/-- Whether a thread has called, in order, the first of some agents and is still to call the others,
or has called all and gone on. -/
def Tells (w : World) (t e : Nat) (n : Notice) (recipients : List (Agent Listener))
    (rest : List Task) (r : Reply) (moves : List Move) : Prop :=
  (∃ front others, (w.after moves).stackOf t = some ⟨front ++ rest, r⟩ ∧ Telling e n others front ∧
    w.called t e n moves ++ others = recipients) ∨ ∃ past, past <+: moves ∧
    (w.after past).stackOf t = some ⟨rest, r⟩ ∧ w.called t e n past = recipients

theorem move_of_dispatch (hs : w.stackOf t = some ⟨.dispatch e n :: rest, r⟩)
    (hx : w.engines[e]? = some x) :
    (w.move (.step t)).stackOf t = some ⟨.deliver e n (x.agents.recipients n) :: rest, r⟩ ∧
    w.move (.step t) =
      ((w.take t rest).push t [.deliver e n (x.agents.recipients n)]).modifyThread t fun x =>
    { x with expired := false } := by
  have hrun : (w.take t rest).dispatch t e n =
      (w.take t rest).push t [.deliver e n (x.agents.recipients n)] := by
    rw [dispatch, show (w.take t rest).engines[e]? = some x from hx]
  exact ⟨(move_of_stackOf hs (congrArg some hrun)).1.trans (stackOf_push (stackOf_take hs) _),
    congrArg (Option.getD · w) (step_of_stackOf hs (congrArg some hrun))⟩

/-- **Whoever tells the agents of an engine something calls those to whom it goes when it begins**,
whatever happens meanwhile. -/
theorem tells_after (hs : w.stackOf t = some ⟨.dispatch e n :: rest, r⟩)
    (hx : w.engines[e]? = some x) (more : List Move) :
    (w.move (.step t)).Tells t e n (x.agents.recipients n) rest r more := by
  induction more using List.reverseRecOn with
  | nil =>
    exact .inl ⟨[.deliver e n (x.agents.recipients n)], _, (move_of_dispatch hs hx).1, .calls, rfl⟩
  | append_singleton more m ih =>
    have hcallee : (w.move (.step t)).called t e n (more ++ [m]) =
        (w.move (.step t)).called t e n more ++ ((w.move (.step t)).after more).callee t e n m := by
      rw [called_append]
      exact congrArg (_ ++ ·) (List.append_nil _)
    rcases ih with ⟨front, others, hstack, htelling, hcalled⟩ | ⟨past, hpast, hover⟩
    · rcases telling_move htelling hstack m with ⟨front', others', hstack', htelling', rfl⟩ |
        ⟨hstack', rfl⟩
      · refine .inl ⟨front', others', by rw [after_append]; exact hstack', htelling', ?_⟩
        rw [hcallee, List.append_assoc]
        exact hcalled
      · refine .inr ⟨more ++ [m], List.prefix_refl _, by rw [after_append]; exact hstack', ?_⟩
        rw [hcallee]
        exact hcalled
    · exact .inr ⟨past, hpast.trans (List.prefix_append ..), hover⟩

/-- What an agent does when it is called by a thread: a listener writes down what it hears. -/
def listen (e : Nat) (agent : Agent Listener) (n : Notice)
    (s : Agents Listener × List (String × Notice)) : Agents Listener × List (String × Notice) :=
  (s.1, (AgentCall.note? ⟨e, agent, n⟩).toList ++ s.2)

/-- Whether nobody who hears a notice would wait at a gate. -/
def Unhindered (w : World) (n : Notice) (recipients : List (Agent Listener)) : Prop :=
  ∀ a ∈ recipients, ∀ start gate, a.body.gate = some (start, gate) →
    n.inspect.startsWith start = true → w.openGates.contains gate = true

theorem move_of_deliver {a : Agent Listener}
    (hs : w.stackOf t = some ⟨.deliver e n (a :: others) :: rest, r⟩)
    (hopen : w.Unhindered n (a :: others)) : ∃ gates : List String, (w.move (.step t)).stackOf t =
      some ⟨gates.map .gate ++ .delivered e :: .deliver e n others :: rest, r⟩ ∧
    (∀ gate ∈ gates, w.openGates.contains gate = true) ∧
    (w.move (.step t)).openGates = w.openGates ∧ (w.move (.step t)).engines = w.engines ∧
    (w.move (.step t)).output.notices = (AgentCall.note? ⟨e, a, n⟩).toList ++ w.output.notices := by
  have hmove := (move_of_stackOf hs rfl).1
  have hworld := step_of_stackOf hs rfl
  have hheard : (if a.body.listens then
        { w.take t rest with output := { (w.take t rest).output with
            notices := (a.body.label, n) :: (w.take t rest).output.notices } }
        else w.take t rest).stackOf t = some ⟨rest, r⟩ := by split <;> exact stackOf_take hs
  have hrest : (w.move (.step t)).openGates = w.openGates ∧ (w.move (.step t)).engines = w.engines ∧
      (w.move (.step t)).output.notices = (AgentCall.note? ⟨e, a, n⟩).toList ++
      w.output.notices := by
    rw [move, hworld, AgentCall.note?]
    simp only [deliver, Option.getD_some]
    by_cases hlistens : a.body.listens = true
    · rw [if_pos hlistens, if_pos hlistens]
      exact ⟨rfl, rfl, rfl⟩
    · rw [if_neg hlistens, if_neg hlistens]
      exact ⟨rfl, rfl, rfl⟩
  have hstack := hmove.trans (stackOf_push hheard _)
  cases hgate : a.body.gate with
  | none =>
    rw [hgate] at hstack
    exact ⟨[], hstack, List.forall_mem_nil _, hrest⟩
  | some g =>
    obtain ⟨start, gate⟩ := g
    simp only [hgate] at hstack
    by_cases hstart : n.inspect.startsWith start = true
    · rw [if_pos hstart] at hstack
      refine ⟨[gate], hstack, fun g hg => ?_, hrest⟩
      rw [List.mem_singleton.mp hg]
      exact hopen a (List.mem_cons_self ..) start gate hgate hstart
    · rw [if_neg hstart] at hstack
      exact ⟨[], hstack, List.forall_mem_nil _, hrest⟩

theorem exists_after_gates (gates : List String)
    (hs : w.stackOf t = some ⟨gates.map .gate ++ rest, r⟩)
    (hopen : ∀ gate ∈ gates, w.openGates.contains gate = true) :
    ∃ k : Nat, (w.after (.replicate k (.step t))).stackOf t = some ⟨rest, r⟩ ∧
    (w.after (.replicate k (.step t))).openGates = w.openGates ∧
    (w.after (.replicate k (.step t))).engines = w.engines ∧
    (w.after (.replicate k (.step t))).output = w.output := by
  induction gates generalizing w with
  | nil => exact ⟨0, hs, rfl, rfl, rfl⟩
  | cons gate gates ih =>
    have hrun : (w.take t (gates.map .gate ++ rest)).runTask t (.gate gate) =
        some (w.take t (gates.map .gate ++ rest)) := if_pos (hopen gate (List.mem_cons_self ..))
    have hmove : w.move (.step t) = _ := congrArg (Option.getD · w) (step_of_stackOf hs hrun)
    have hpassed := ((move_of_stackOf hs hrun).1).trans (stackOf_take hs)
    obtain ⟨k, hstack, hgates, hengines, houtput⟩ := ih hpassed fun g hg => by
      rw [hmove]
      exact hopen g (List.mem_cons_of_mem _ hg)
    have hsame : (w.move (.step t)).openGates = w.openGates ∧
        (w.move (.step t)).engines = w.engines ∧ (w.move (.step t)).output = w.output := by
      rw [hmove]
      exact ⟨rfl, rfl, rfl⟩
    exact ⟨k + 1, hstack, hgates.trans hsame.1, hengines.trans hsame.2.1, houtput.trans hsame.2.2⟩

theorem exists_after_deliver {x : Runtime}
    (hs : w.stackOf t = some ⟨.deliver e n others :: rest, r⟩)
    (hx : w.engines[e]? = some x) (hopen : w.Unhindered n others) :
    ∃ (k : Nat) (x' : Runtime), (w.after (.replicate k (.step t))).stackOf t = some ⟨rest, r⟩ ∧
    (w.after (.replicate k (.step t))).engines[e]? = some x' ∧
    (x'.agents, (w.after (.replicate k (.step t))).output.notices) = others.foldl (fun s a =>
      ((listen e a n s).1.countDelivery, (listen e a n s).2)) (x.agents, w.output.notices) := by
  induction others generalizing w x with
  | nil =>
    refine ⟨1, x, (move_of_stackOf hs rfl).1.trans (stackOf_take hs), ?_, ?_⟩
    · show (w.move (.step t)).engines[e]? = some x
      rw [move, step_of_stackOf hs rfl]
      exact hx
    · show (x.agents, (w.move (.step t)).output.notices) = _
      rw [move, step_of_stackOf hs rfl]
      rfl
  | cons a others ih =>
    obtain ⟨gates, hcalled, hgates, hopen₁, hengines₁, hnotices₁⟩ := move_of_deliver hs hopen
    obtain ⟨k, hstack₂, hopen₂, hengines₂, houtput₂⟩ :=
      exists_after_gates gates hcalled fun g hg => by
      rw [hopen₁]
      exact hgates g hg
    generalize hv : (w.move (.step t)).after (.replicate k (.step t)) =
      v at hstack₂ hopen₂ hengines₂ houtput₂
    have hmove : v.move (.step t) = _ := congrArg (Option.getD · v) (step_of_stackOf hstack₂ rfl)
    have hcounted := (move_of_stackOf hstack₂ rfl).1.trans
      (show ((v.take t (.deliver e n others :: rest)).delivered e).stackOf t = _ from
        stackOf_take hstack₂)
    have hx₃ :
        (v.move (.step t)).engines[e]? = some { x with agents := x.agents.countDelivery } := by
      rw [hmove]
      show (v.engines.modify e _)[e]? = _
      rw [Array.getElem?_modify, if_pos rfl, hengines₂, hengines₁, hx]
      rfl
    have hnotices₃ : (v.move (.step t)).output.notices = (AgentCall.note? ⟨e, a, n⟩).toList ++
        w.output.notices := by
      rw [hmove, ← hnotices₁, ← houtput₂]
      rfl
    obtain ⟨j, x', hstack, hx', heq⟩ := ih hcounted hx₃ fun b hb start gate hgate hstart => by
      rw [hmove]
      show v.openGates.contains gate = true
      rw [hopen₂, hopen₁]
      exact hopen b (List.mem_cons_of_mem _ hb) start gate hgate hstart
    have hsteps : w.after (.replicate (1 + (k + (1 + j))) (.step t)) =
        (v.move (.step t)).after (.replicate j (.step t)) := by
      rw [List.replicate_add, after_append, List.replicate_add, after_append, List.replicate_add,
        after_append, ← hv]
      rfl
    rw [← hsteps] at hstack hx' heq
    refine ⟨_, x', hstack, hx', heq.trans ?_⟩
    rw [hnotices₃]
    rfl

/-- **Alone, a thread that tells agents something does what a dispatch does.** -/
theorem exists_after_dispatch {x : Runtime} (hs : w.stackOf t = some ⟨.dispatch e n :: rest, r⟩)
    (hx : w.engines[e]? = some x) (hopen : w.Unhindered n (x.agents.recipients n)) :
    ∃ (k : Nat) (x' : Runtime), (w.after (.replicate k (.step t))).stackOf t = some ⟨rest, r⟩ ∧
    (w.after (.replicate k (.step t))).engines[e]? = some x' ∧
    (x'.agents, (w.after (.replicate k (.step t))).output.notices) =
      Agents.dispatch (listen e) n (x.agents, w.output.notices) := by
  obtain ⟨hstack, hmove⟩ := move_of_dispatch hs hx
  obtain ⟨k, x', hover, hx', heq⟩ := exists_after_deliver (x := x) hstack (by rw [hmove]; exact hx)
    (by rw [hmove]; exact hopen)
  refine ⟨k + 1, x', hover, hx', heq.trans ?_⟩
  rw [hmove]
  rfl

/-- **Who may not suspend threads leaves them alone**, and its call is over at once. -/
theorem crew_of_agent (hi : i.agent? = some label) (ha : w.names.agents.get? label = some a)
    (hno : a.capabilities.canSuspend = false) (hs : w.stackOf t = some ⟨.perform i :: rest, r⟩) :
    (w.move (.step t)).crew = w.crew.take t rest := by
  have hperforms : ∀ w₁ : World, w₁.names = w.names → (w₁.perform t i).crew = w₁.crew := by
    intro w₁ hnames
    rw [← hnames] at ha
    cases i with
    | agentInfo | agentSuspend | agentResume | agentAwait =>
      cases hi
      simp [perform, withAgent, ha, controlCall, hno]
    | agentThreadInfo | agentThreads =>
      cases hi
      simp only [perform, withAgent, ha]
      split <;> simp
    | dropAgent =>
      cases hi
      simp only [perform, performDropAgent, ha]
      exact (crew_complete _).trans (crew_releaseAgent _)
    | _ => cases hi
  obtain ⟨x, hx, htasks, -⟩ := exists_thread_of_stackOf hs
  have hstep : w.step t = some (((w.take t rest).perform t i).modifyThread t
      fun x => { x with expired := false }) := by
    simp only [step, hx, htasks, runTask, Option.map_some]
  rw [move, hstep, ← crew_take, ← hperforms (w.take t rest) rfl]
  exact crew_modifyThread_of_actor fun _ => rfl

/-- What holds of agents and of those who dispatch to them. -/
structure TellsAgents : Prop where
  /-- A dispatch goes once, in the order of registration, to those who are registered when it begins
  and allowed to hear of it, whatever agents do then and later. -/
  exactly : ∀ {β : Type} (s s' : Agents β × Agents.Minutes β) (call : _) (n : Notice),
    Agents.Uses ({}, {}) s →
    (∀ agent n s, Agents.Uses s (call agent n s)) → Agents.Uses (Agents.convene call n s) s' →
    s'.2.of s.2.next = (s.1.registered.filter (·.capabilities.allow n)).map (·, n)
  /-- Numbers grow in the order of registration, and who comes later has a number that nobody had
  before. -/
  ids : ∀ {β : Type} (s s' : Agents β × Agents.Minutes β), Agents.Uses ({}, {}) s →
    Agents.Uses s s' →
    s.1.registered.Pairwise (·.id < ·.id) ∧ (∀ agent ∈ s.1.registered, agent.id < s.1.nextId) ∧
    ∀ agent ∈ s'.1.registered, agent ∈ s.1.registered ∨ s.1.nextId ≤ agent.id
  /-- As many deliveries are counted as were made. -/
  counts : ∀ {β : Type} (s s' : Agents β × Agents.Minutes β), Agents.Uses s s' →
    s'.1.delivered + s.2.heard.length = s.1.delivered + s'.2.heard.length
  /-- A thread calls exactly these, one step after the other, until the dispatch is over. -/
  calls : ∀ (w : World) (t e : Nat) (n : Notice) (rest : List Task) (r : Reply) (x : Runtime)
    (more : List Move), w.stackOf t = some ⟨.dispatch e n :: rest, r⟩ → w.engines[e]? = some x →
    (w.move (.step t)).Tells t e n (x.agents.registered.filter (·.capabilities.allow n)) rest r more
  /-- Alone and where all gates are open, it does to agents and to what listeners have written down
  what a dispatch does. -/
  alone : ∀ (w : World) (t e : Nat) (n : Notice) (rest : List Task) (r : Reply) (x : Runtime),
    w.stackOf t = some ⟨.dispatch e n :: rest, r⟩ → w.engines[e]? = some x →
      w.Unhindered n (x.agents.recipients n) → ∃ (k : Nat) (x' : Runtime),
        (w.after (.replicate k (.step t))).stackOf t = some ⟨rest, r⟩ ∧
        (w.after (.replicate k (.step t))).engines[e]? = some x' ∧
        (x'.agents, (w.after (.replicate k (.step t))).output.notices) =
          Agents.dispatch (listen e) n (x.agents, w.output.notices)
  /-- In every run an engine has counted the calls of its agents, but for those that threads are
  about to count. -/
  counted : ∀ (s : EngineSpec) (label : String) (moves : List Move) (e : Nat) (x : Runtime),
    ((start s label).after moves).engines[e]? = some x →
      ((start s label).agentCalls moves).countP (·.engine == e) = x.agents.delivered +
        ((start s label).after moves).load fun x => (x.tasks.map (Task.callsToCount e)).sum
  /-- What comes out of a program is what listeners were called with. -/
  shows : ∀ (s : EngineSpec) (label : String) (moves : List Move),
    ((start s label).agentCalls moves).filterMap AgentCall.note? =
      (start s label).takenNotices moves ++ ((start s label).after moves).output.inOrder.notices
  /-- A call through the handle of an agent that may not suspend threads is over at once, and leaves
  threads and registries as they are. -/
  gated : ∀ (w : World) (t : Nat) (i : Instruction) (label : String) (a : AgentHandle)
    (rest : List Task) (r : Reply), i.agent? = some label → w.names.agents.get? label = some a →
    a.capabilities.canSuspend = false → w.stackOf t = some ⟨.perform i :: rest, r⟩ →
    (w.move (.step t)).crew = w.crew.modify t fun x => { x with tasks := rest }

/-- **A notice reaches those, and only those, who were registered for it when its dispatch
began.** -/
theorem tellsAgents_all : TellsAgents where
  exactly s s' call n hs hcall hs' := by
    have hsince := fun agent n s => (hcall agent n s).since
    rw [hs'.since.calls _ (Agents.since_opened hsince n).numbers, List.append_nil]
    exact Agents.of_convene hsince n (Agents.sound_of_uses hs)
  ids s s' hs hs' :=
    ⟨(Agents.sound_of_uses hs).sorted, (Agents.sound_of_uses hs).used, hs'.since.known⟩
  counts s s' h := h.since.counts
  calls w t e n rest r x more hs hx := tells_after hs hx more
  alone w t e n rest r x hs hx hopen := exists_after_dispatch hs hx hopen
  counted s label moves e x hx := delivered_after s label moves hx
  shows := shows_after
  gated w t i label a rest r hi ha hno hs := crew_of_agent hi ha hno hs

end World

end ManagedHeap
