import ManagedHeap.Proofs.Nesting

/-!
# Threads that suspend themselves

**Input.**  A thread that asks for its own suspension, and what threads do meanwhile.

**Algorithm.**  The suspension is counted and told to agents, then the thread looks at its flag and
comes in if it is up.  A request raises the flag of a thread that runs.  Whoever stands still is not
asked, also if it is the thread itself, inside a region.

**Results.**  `World.parksItself_after`: as long as its count stays above zero, such a thread does
not get back to what it was doing, unless it stood still with its flag down when it asked; then it
never comes in.
-/

namespace ManagedHeap

namespace Mutator

variable {m m' : Mutator} {b : Bool}

/-- What a thread finds when it looks at its flag: up, or down as it stands still and is not
asked. -/
def Shows (b : Bool) (m : Mutator) : Prop := m.pollRequested = b ∧ (b = false → m.isStopped = true)

theorem Shows.requestStop (h : m.Shows b) : m.requestStop.Shows b := by
  cases b with
  | true =>
    refine ⟨?_, nofun⟩
    unfold Mutator.requestStop
    split
    · rfl
    · exact h.1
  | false =>
    rw [requestStop_of_isStopped (h.2 rfl)]
    exact h

def Heard (m : Mutator) : Prop := m.status = .safepointRequested → m.pollRequested = true

theorem Heard.requestStop (h : m.Heard) : m.requestStop.Heard := by
  unfold Heard Mutator.requestStop
  split
  · exact fun _ => rfl
  · exact h

theorem heard_withdrawRequest : m.withdrawRequest.Heard := by
  unfold Heard withdrawRequest
  dsimp only
  split
  · exact nofun
  · next h => exact fun hs => (h hs).elim

theorem heard_resumeRunning : m.resumeRunning.Heard := by
  unfold resumeRunning
  split
  · exact Heard.requestStop nofun
  · exact nofun

theorem Heard.shows (h : m.Heard) (hm : m.isStopped = false ∨ m.pollRequested = true) :
    m.requestStop.Shows true := by
  refine ⟨?_, nofun⟩
  unfold Mutator.requestStop
  split
  · rfl
  · next hrunning =>
      refine hm.elim (fun hstopped => h ?_) fun hflag => hflag
      cases hs : m.status with
      | running => exact (hrunning hs).elim
      | safepointRequested => rfl
      | suspended | blocked => simp [isStopped, hs] at hstopped

end Mutator

namespace Registry

variable {r r' : Registry} {id : ThreadId} {op : Operation} {m m' : Mutator} {b : Bool}

theorem Turns.heard (h : r.Turns r' id op o (some m')) (ho : ∀ m, o = some m → m.Heard) :
    m'.Heard := by
  cases h with
  | edits _ hedits =>
    have hm := ho _ rfl
    cases hedits with
    | keeps | lowers | leavesHeld => exact hm
    | comesIn | blocks | stays => exact nofun
    | passes | frees => exact Mutator.heard_withdrawRequest
    | leaves | goesOn => exact Mutator.heard_resumeRunning
    | raises => exact Mutator.Heard.requestStop hm
  | asked => exact (ho _ rfl).requestStop
  | released =>
    split
    · exact Mutator.heard_withdrawRequest
    · exact ho _ rfl
  | comes =>
    split
    · exact Mutator.Heard.requestStop nofun
    · exact nofun

/-- **What a suspended thread will find, it finds also after the calls of others.** -/
theorem Turns.shows (h : r.Turns r' id op (some m) (some m')) (hop : op.own? ≠ some id)
    (hcount : 0 < m.suspendCount) (hcount' : 0 < m'.suspendCount) (hm : m.Shows b) :
    m'.Shows b := by
  cases h with
  | edits _ hedits =>
    cases hedits with
    | keeps => exact hm
    | comesIn | passes | blocks | stays | leaves | goesOn => exact (hop rfl).elim
    | raises => exact Mutator.Shows.requestStop hm
    | lowers => exact hm
    | leavesHeld | frees => exact (Nat.lt_irrefl 0 hcount').elim
  | asked => exact hm.requestStop
  | released =>
    rw [if_neg (Nat.ne_of_gt hcount)]
    exact hm

end Registry

def Task.isTelling : Task → Bool
  | .dispatch .. | .deliver .. | .delivered _ | .gate _ => true
  | _ => false

namespace Crew

variable {c c' : Crew} {t : Nat} {x : Actor} {task : Task}

/-- Whoever reports a suspension stays who it is, and changes nothing in registries. -/
theorem Act.exists_badge (h : Act t x c task c') (hx : c.actors[t]? = some x)
    (htask : task.isTelling = true ∨ ∃ e id, task = .suspended e id ∨ task = .selfPoll e id) :
    c'.registries = c.registries ∧ ∃ y, c'.actors[t]? = some y ∧ y.badge = x.badge := by
  cases h with
  | idles _ hgoes =>
    obtain ⟨_, -, -, ha⟩ := hgoes.front
    exact ⟨rfl, _, getElem?_modify_self hx, by rw [Actor.badge, ha, Actor.badge]⟩
  | polls => exact ⟨rfl, _, getElem?_modify_self hx, rfl⟩
  | _ =>
    rcases htask with hno | ⟨_, _, hno | hno⟩ <;> cases hno

end Crew

namespace World

variable {w : World} {m : Move} {t e : Nat} {id : ThreadId} {rest : List Task} {reply : Reply}
  {b : Bool} {k : Mutator}

theorem stackOf_telling (hs : w.stackOf t = some ⟨task :: rest, reply⟩)
    (htask : task.isTelling = true) : ∃ front, front.all Task.isTelling = true ∧
    (w.move (.step t)).stackOf t = some ⟨front ++ rest, reply⟩ := by
  have htaken := stackOf_take hs
  cases task with
  | dispatch k n =>
    rw [(move_of_stackOf hs rfl).1, dispatch]
    split
    · exact ⟨_, rfl, stackOf_push htaken _⟩
    · exact ⟨[], rfl, htaken⟩
  | deliver k n recipients =>
    rw [(move_of_stackOf hs rfl).1]
    cases recipients with
    | nil => exact ⟨[], rfl, htaken⟩
    | cons a others =>
      refine ⟨_, ?_, stackOf_push ?_ _⟩
      · split
        · split <;> rfl
        · rfl
      · split <;> exact htaken
  | delivered k =>
    rw [(move_of_stackOf hs rfl).1]
    exact ⟨[], rfl, htaken⟩
  | gate g =>
    obtain ⟨x, hx, htasks, -⟩ := exists_thread_of_stackOf hs
    by_cases hopen : w.openGates.contains g = true
    · rw [(move_of_stackOf hs (if_pos hopen)).1]
      exact ⟨[], rfl, htaken⟩
    · have hstuck : w.step t = none := by
        simp only [step, hx, htasks, runTask]
        rw [show (w.take t rest).passGate g = none from if_neg hopen]
        rfl
      exact ⟨[.gate g], rfl, by rw [move, hstuck]; exact hs⟩
  | _ => cases htask

/-- What stands on the stack of a thread that has suspended itself and has not looked at its
flag. -/
inductive Reporting (e : Nat) (id : ThreadId) (rest : List Task) : Stack → Prop
  | counts {n : Nat} : Reporting e id rest ⟨.suspended e id :: rest, .count n⟩
  | tells {front : List Task} {reply : Reply} (hfront : front.all Task.isTelling = true) :
      Reporting e id rest ⟨front ++ .selfPoll e id :: rest, reply⟩

/-- Whether a thread has suspended itself and has not looked at its flag, and what it will find
then. -/
structure Looks (w : World) (t e : Nat) (id : ThreadId) (rest : List Task) (b : Bool) : Prop where
  stack : ∃ st, w.stackOf t = some st ∧ Reporting e id rest st
  self : w.currentId t e = some id
  shows : ∃ m, w.crew.record e id = some m ∧ m.Shows b

/-- Whether a thread comes in at a poll or is parked there. -/
def Parks (w : World) (t e : Nat) (id : ThreadId) (rest : List Task) : Prop :=
  ∃ op reply, (op = .poll id ∨ op = .parked id .any) ∧
    w.stackOf t = some ⟨.registry e op :: rest, reply⟩

/-- Whether a thread is suspended, standing still or not. -/
def Counted (w : World) (e : Nat) (id : ThreadId) : Prop :=
  ∃ m, w.crew.record e id = some m ∧ 0 < m.suspendCount

theorem selfPoll_of_shows (hid : w.currentId t e = some id)
    (hk : w.crew.record e id = some k) (hshows : k.Shows b) :
    w.selfPoll t e id = if b then w.push t [.registry e (.poll id)] else w := by
  obtain ⟨r, hr, hget⟩ := Option.bind_eq_some_iff.mp hk
  have hmutator : w.mutator? t e = some k := by
    rw [getElem?_registries_crew] at hr
    obtain ⟨x, hx, rfl⟩ := Option.map_eq_some_iff.mp hr
    rw [mutator?, hid, hx]
    exact hget
  rw [selfPoll, if_pos hid, checkpoint, hmutator]
  dsimp only
  rw [hshows.1, (Registry.mem_of_get? hget).2]

/-- **A parked thread stays so while it is suspended.** -/
theorem Parks.move (h : w.Parks t e id rest) (hcount : w.Counted e id) (m : Move) :
    (w.move m).Parks t e id rest := by
  obtain ⟨op, reply, hop, hs⟩ := h
  obtain ⟨k, hk, hpos⟩ := hcount
  obtain ⟨r, hr, hk⟩ := Option.bind_eq_some_iff.mp hk
  rw [getElem?_registries_crew] at hr
  obtain ⟨x, hx, rfl⟩ := Option.map_eq_some_iff.mp hr
  have hrestacks := restacks_move w m t
  rw [hs] at hrestacks
  generalize hs' : (w.move m).stackOf t = st at hrestacks
  cases hrestacks with
  | same => exact ⟨op, reply, hop, hs'⟩
  | steps hm h =>
    obtain ⟨x', expired, registry, p, hx', hstep, rfl, rfl, -⟩ :=
      produces_registry h (Array.getElem?_eq_some_iff.mp hx).1
    cases hx.symm.trans hx'
    -- whoever is suspended is held
    have hheld : x.registry.holds id .any ≠ false := fun hfree =>
      Nat.ne_of_gt hpos ((Registry.free_of_holds _ hk hfree).2 rfl)
    rcases hop with rfl | rfl
    · cases Registry.section_of_step hstep with
      | misses hop => simp at hop
      | comesIn => exact ⟨_, _, .inr rfl, hs'⟩
      | passes hfree => exact (hheld hfree).elim
    · cases Registry.section_of_step hstep with
      | misses hop => simp at hop
      | sleepsOn => exact ⟨_, _, .inr rfl, hs'⟩
      | goesOn hfree => exact (hheld hfree).elim

theorem shows_of_other (hl : w.crew.Lawful) (hx : w.crew.actors[t]? = some x)
    (hb : x.badge = some ⟨e, id⟩) (hm : m ≠ .step t) (hcount : w.Counted e id)
    (hcount' : (w.move m).Counted e id) (h : ∃ k, w.crew.record e id = some k ∧ k.Shows b) :
    ∃ k, (w.move m).crew.record e id = some k ∧ k.Shows b := by
  obtain ⟨k, hk, hshows⟩ := h
  obtain ⟨_, hsame, hpos⟩ := hcount
  cases hk.symm.trans hsame
  obtain ⟨k', hk', hpos'⟩ := hcount'
  refine ⟨k', hk', ?_⟩
  obtain ⟨r, hr, hk⟩ := Option.bind_eq_some_iff.mp hk
  obtain ⟨r', hr', hregisters⟩ := exists_registers m hr
  rw [Crew.record, hr', Option.bind_some] at hk'
  cases hregisters with
  | nothing _ hmasked =>
    have hget : k'.masked = k.masked := by
      have hsame := congrArg (·.get? id) hmasked
      simp only [Registry.get?_masked, hk, hk', Option.map_some, Option.some.injEq] at hsame
      exact hsame
    obtain ⟨-, hstatus, -, hpoll⟩ := Mutator.of_masked hget
    refine ⟨hpoll.trans hshows.1, fun hdown => ?_⟩
    rw [Mutator.isStopped, hstatus]
    exact hshows.2 hdown
  | @call u op _ _ _ hu _ hcall hstep =>
    have hturns := (Registry.section_of_step hstep).turns id
    rw [hk, hk'] at hturns
    refine hturns.shows (fun hown => ?_) hpos hpos' hshows
    obtain ⟨y, more, hy, htasks⟩ := exists_tasks_of_callOf hcall
    have hactor : w.crew.actors[u]? = some y.actor := by rw [getElem?_actors, hy]; rfl
    have hposture : Posture y.actor.badge (.registry e op :: more) := htasks ▸ hl.posture hactor
    have hbadge := Crew.badge_of_isOwn (b := ⟨e, id⟩) ⟨op, rfl, hown⟩ hposture
    cases hl.apart hx hactor hb hbadge
    exact hm hu

/-- **Whoever has suspended itself goes on to look at its flag, and does what it finds.** -/
theorem Looks.move (h : w.Looks t e id rest b) (hl : w.crew.Lawful)
    (hcount : w.Counted e id) (m : Move) (hcount' : (w.move m).Counted e id) :
    (w.move m).Looks t e id rest b ∨ b = true ∧ (w.move m).Parks t e id rest ∨
    b = false ∧ ∃ reply, (w.move m).stackOf t = some ⟨rest, reply⟩ := by
  obtain ⟨⟨st, hs, hreporting⟩, hself, hshows⟩ := h
  obtain ⟨x, hx, htasks⟩ := exists_actor_of_stackOf hs
  have hb := (currentId_eq_some_iff hx).mp hself
  by_cases hm : m = .step t
  · subst hm
    -- the registry and the number stay, whichever of these tasks it is
    have hnext : ∀ {task l}, st.tasks = task :: l →
        (task.isTelling = true ∨ ∃ e id, task = .suspended e id ∨ task = .selfPoll e id) →
        (w.move (.step t)).currentId t e = some id ∧
        ∃ k, (w.move (.step t)).crew.record e id = some k ∧ k.Shows b := by
      intro task l hst htask
      cases hstep : w.step t with
      | none =>
        rw [World.move, hstep]
        exact ⟨hself, hshows⟩
      | some w' =>
        obtain ⟨y, task', l', hy, hl', hact⟩ := act_step hstep
        cases hx.symm.trans hy
        cases (htasks.trans hst).symm.trans hl'
        obtain ⟨hregistries, z, hz, hbadge⟩ :=
          hact.exists_badge (Crew.getElem?_modify_self hx) htask
        rw [World.move, hstep]
        refine ⟨(currentId_eq_some_iff hz).mpr (hbadge.trans hb), ?_⟩
        rw [Option.getD_some, Crew.record, hregistries]
        exact hshows
    cases hreporting with
    | @counts n =>
      obtain ⟨hself', hshows'⟩ := hnext rfl (.inr ⟨_, _, .inl rfl⟩)
      refine .inl ⟨?_, hself', hshows'⟩
      have hrestacks := restacks_move w (.step t) t
      rw [hs] at hrestacks
      generalize hs' : (w.move (.step t)).stackOf t = st at hrestacks
      cases hrestacks with
      | same => exact ⟨_, rfl, .counts⟩
      | steps _ h =>
        cases h with
        | strays htask => cases htask
        | suspends =>
          have htells : [Task.dispatch e (.threadSuspended id n)].all Task.isTelling = true := rfl
          exact ⟨_, rfl, .tells htells⟩
        | suspendsNobody hr => exact (hr n rfl).elim
        | _ => first | contradiction | simp_all
    | @tells front reply hfront =>
      cases front with
      | cons task front =>
        rw [List.all_cons, Bool.and_eq_true] at hfront
        obtain ⟨hself', hshows'⟩ := hnext rfl (.inl hfront.1)
        obtain ⟨more, hmore, hs'⟩ := stackOf_telling hs hfront.1
        have htells : (more ++ front).all Task.isTelling = true := by
          rw [List.all_append, hmore, hfront.2]; rfl
        have hstack : (w.move (.step t)).stackOf t =
            some ⟨(more ++ front) ++ .selfPoll e id :: rest, reply⟩ := by
          rw [hs', List.append_assoc]
          rfl
        exact .inl ⟨⟨_, hstack, .tells htells⟩, hself', hshows'⟩
      | nil =>
        obtain ⟨k, hk, hshow⟩ := hshows
        have hlook := (move_of_stackOf hs rfl).1
        have htaken := stackOf_take hs
        have hself' : (w.take t rest).currentId t e = some id := by
          obtain ⟨y, hy, -, -⟩ := exists_thread_of_stackOf hs
          rw [← hself, currentId_eq (threads_take hy rest), currentId_eq hy]
          rfl
        rw [selfPoll_of_shows hself' hk hshow] at hlook
        cases b with
        | true => exact .inr (.inl ⟨rfl, _, _, .inl rfl, hlook.trans (stackOf_push htaken _)⟩)
        | false => exact .inr (.inr ⟨rfl, _, hlook.trans htaken⟩)
  · have hbusy : x.tasks ≠ [] := by
      rw [htasks]
      cases hreporting <;> simp
    have hx' := (turn_move m).getElem?_of_busy hm hx hbusy
    refine .inl ⟨⟨st, ?_, hreporting⟩, (currentId_eq_some_iff hx').mpr hb,
      shows_of_other hl hx hb hm hcount hcount' hshows⟩
    have hrestacks := restacks_move w m t
    rw [hs] at hrestacks
    generalize (w.move m).stackOf t = st' at hrestacks
    cases hrestacks with
    | same => rfl
    | steps hm' | performs hm' => exact (hm hm').elim
    | instructs => exact (hbusy htasks).elim

section Runs

/-- Whether a thread is suspended after each of some moves. -/
def StaysCounted (w : World) (e : Nat) (id : ThreadId) (moves : List Move) : Prop :=
  ∀ past, past <+: moves → (w.after past).Counted e id

theorem heard_of_record (s : EngineSpec) (label : String) (moves : List Move)
    (hk : ((start s label).after moves).crew.record e id = some k) : k.Heard := by
  refine record_induction s label (fun hmasked h => ?_) (fun hturns h => hturns.heard h) moves hk
  obtain ⟨-, hstatus, -, hpoll⟩ := Mutator.of_masked hmasked
  unfold Mutator.Heard
  rw [hstatus, hpoll]
  exact h

theorem looks_of_requestSuspend (hd : w.crew.Detained)
    (hs : w.stackOf t = some ⟨suspendTasks e id ++ rest, reply⟩)
    (hself : w.currentId t e = some id) (hk : w.crew.record e id = some k)
    (hb : ∀ n, { k with suspendCount := n }.requestStop.Shows b) :
    (w.move (.step t)).Looks t e id rest b := by
  obtain ⟨r, hr, hget⟩ := Option.bind_eq_some_iff.mp hk
  obtain ⟨x, hx, htasks⟩ := exists_actor_of_stackOf hs
  obtain ⟨x', more, expired, r', p, hx', hmore, hstep, hcrew⟩ :=
    exists_call hd (callOf_of_actor hx htasks) hr fun h => h
  cases hx.symm.trans hx'
  cases htasks.symm.trans hmore
  simp only [Registry.step, hget] at hstep
  cases hstep
  have hactor : (w.move (.step t)).crew.actors[t]? = some { x with
      tasks := .suspended e id :: rest, reply :=
        .count (min (k.suspendCount + 1) suspendCountMax) } := by
    rw [hcrew]
    exact Crew.getElem?_modify_self (Crew.getElem?_modify_self hx)
  refine ⟨⟨_, stackOf_of_actor hactor, .counts⟩, ?_, _, ?_,
    hb (min (k.suspendCount + 1) suspendCountMax)⟩
  · exact (currentId_eq_some_iff hactor).mpr ((currentId_eq_some_iff hx).mp hself)
  · rw [Crew.record, hcrew]
    refine (congrArg (Option.bind · _) (Crew.getElem?_modifyRegistry_self hr)).trans ?_
    have hid : ∀ j : Mutator, ({ j with suspendCount := min (k.suspendCount + 1) suspendCountMax } :
        Mutator).requestStop.id = j.id := fun _ => Mutator.id_requestStop
    exact (Registry.get?_update hid hget).trans (congrArg some (if_pos rfl))

theorem fares_after (s : EngineSpec) (label : String) (before more : List Move)
    (h : ((start s label).after before).Looks t e id rest b)
    (hcounted : ((start s label).after before).StaysCounted e id more) :
    ((start s label).after (before ++ more)).Looks t e id rest b ∨ b = true ∧
    ((start s label).after (before ++ more)).Parks t e id rest ∨ b = false ∧ ∃ past reply,
    past <+: more ∧ ((start s label).after (before ++ past)).stackOf t = some ⟨rest, reply⟩ := by
  induction more using List.reverseRecOn with
  | nil =>
    rw [List.append_nil]
    exact .inl h
  | append_singleton past m ih =>
    have hpast := List.prefix_append past [m]
    have hcount := hcounted past hpast
    have hcount' := hcounted _ (List.prefix_refl _)
    rw [← after_append] at hcount hcount'
    rw [← List.append_assoc, after_append] at hcount' ⊢
    rcases ih fun l hl => hcounted l (hl.trans hpast) with hlooks | ⟨hb, hparks⟩ |
      ⟨hb, l, reply, hl, hback⟩
    · rcases hlooks.move (crew_lawful_after s label _) hcount m hcount' with hlooks | hparks |
        ⟨hb, reply, hback⟩
      · exact .inl hlooks
      · exact .inr (.inl hparks)
      · refine .inr (.inr ⟨hb, _, reply, List.prefix_refl _, ?_⟩)
        rw [← List.append_assoc, after_append]
        exact hback
    · exact .inr (.inl ⟨hb, hparks.move hcount m⟩)
    · exact .inr (.inr ⟨hb, l, reply, hl.trans hpast, hback⟩)

/-- **Whoever suspends itself comes in,** and as long as its count has stayed above zero it has not
got back to what it was doing.  The exception is a thread that stood still with its flag down when
it asked: it tells agents of its suspension and gets back, and does not come in. -/
theorem parksItself_after (s : EngineSpec) (label : String) (before more : List Move) {k : Mutator}
    (hs : ((start s label).after before).stackOf t = some ⟨suspendTasks e id ++ rest, reply⟩)
    (hself : ((start s label).after before).currentId t e = some id)
    (hk : ((start s label).after before).crew.record e id = some k)
    (hcounted : ((start s label).after (before ++ [.step t])).StaysCounted e id more) :
    (k.isStopped = false ∨ k.pollRequested = true → ∃ front reply, front ≠ [] ∧
      ((start s label).after (before ++ [.step t] ++ more)).stackOf t =
      some ⟨front ++ rest, reply⟩) ∧ (k.isStopped = true → k.pollRequested = false →
      (∃ st, ((start s label).after (before ++ [.step t] ++ more)).stackOf t = some st ∧
      Reporting e id rest st) ∨ ∃ past reply, past <+: more ∧
      ((start s label).after (before ++ [.step t] ++ past)).stackOf t = some ⟨rest, reply⟩) := by
  have hlooks : ∀ {b : Bool}, (∀ n, { k with suspendCount := n }.requestStop.Shows b) →
      ((start s label).after (before ++ [.step t])).Looks t e id rest b := by
    intro b hb
    rw [after_append]
    exact looks_of_requestSuspend (detained_after s label before) hs hself hk hb
  constructor
  · intro hasked
    have hheard : k.Heard := heard_of_record s label before hk
    have hup : ∀ n, { k with suspendCount := n }.requestStop.Shows true :=
      fun n => Mutator.Heard.shows (m := { k with suspendCount := n }) hheard hasked
    rcases fares_after s label _ more (hlooks hup) hcounted with hlooks |
      ⟨-, op, reply, -, hstack⟩ | ⟨hno, -⟩
    · obtain ⟨st, hst, hreporting⟩ := hlooks.stack
      cases hreporting with
      | counts => exact ⟨[_], _, List.cons_ne_nil _ _, hst⟩
      | @tells front reply =>
        refine ⟨front ++ [.selfPoll e id], reply, by simp, ?_⟩
        rw [hst, List.append_assoc]
        rfl
    · exact ⟨[_], reply, List.cons_ne_nil _ _, hstack⟩
    · cases hno
  · intro hstopped hdown
    have hrests : ∀ n, { k with suspendCount := n }.requestStop.Shows false := fun n =>
        Mutator.Shows.requestStop (m := { k with suspendCount := n }) ⟨hdown, fun _ => hstopped⟩
    rcases fares_after s label _ more (hlooks hrests) hcounted with hlooks | ⟨hno, -⟩ | ⟨-, hback⟩
    · exact .inl hlooks.stack
    · cases hno
    · exact .inr hback

/-- A thread that is about to suspend itself, outside of regions and inside. -/
def ownMoves (inside : Bool) : List Move :=
  [.call "worker"] ++ given 0 0 (.attach "gc" "worker") 8 ++
    (if inside then given 0 1 .enterBlocking 8 else []) ++ given 0 2 (.suspend "gc" 1) 1

/-- Whether a thread is about to suspend itself before it concludes its instruction. -/
def suspendsNext : Option Stack → Bool
  | some ⟨[.registry 0 (.requestSuspend 1), .suspended 0 1, .conclude 0 .plain], _⟩ => true
  | _ => false

theorem exists_stackOf_own (inside : Bool) :
    ∃ reply, ((start standardEngine "gc").after (ownMoves inside)).stackOf 0 =
      some ⟨suspendTasks 0 1 ++ [.conclude 0 .plain], reply⟩ := by
  have hnext :
      suspendsNext (((start standardEngine "gc").after (ownMoves inside)).stackOf 0) = true := by
    cases inside <;> decide +kernel
  unfold suspendsNext at hnext
  split at hnext
  · next reply hs => exact ⟨reply, hs⟩
  · cases hnext

theorem staysCounted_of_all (h : ∀ n ≤ moves.length,
      ((w.after (moves.take n)).crew.record 0 1).any (0 < ·.suspendCount) = true) :
    w.StaysCounted 0 1 moves := by
  intro past hpast
  have hany := h past.length hpast.length_le
  rw [← List.prefix_iff_eq_take.mp hpast] at hany
  cases hm : (w.after past).crew.record 0 1 with
  | none =>
    rw [hm] at hany
    cases hany
  | some m =>
    rw [hm] at hany
    exact ⟨m, hm, of_decide_eq_true hany⟩

theorem parksItself_own : ∃ front reply, front ≠ [] ∧
    ((start standardEngine "gc").after (ownMoves false ++ [.step 0] ++
      List.replicate 9 (.step 0))).stackOf 0 = some ⟨front ++ [.conclude 0 .plain], reply⟩ := by
  obtain ⟨reply, hs⟩ := exists_stackOf_own false
  have hcounted : ((start standardEngine "gc").after (ownMoves false ++ [.step 0])).StaysCounted 0 1
      (List.replicate 9 (.step 0)) := staysCounted_of_all (by decide +kernel)
  refine (parksItself_after _ _ _ _ (k := { id := 1, name := "worker" }) hs ?_ ?_
    hcounted).1 (.inl rfl)
  · decide +kernel
  · decide +kernel

/-- A thread that suspends itself inside a region gets back at once, although it is suspended. -/
theorem returns_suspended :
    ((start standardEngine "gc").after (ownMoves true)).callOf 0 = some (0, .requestSuspend 1) ∧
    ((start standardEngine "gc").after (ownMoves true)).currentId 0 0 = some 1 ∧
    ((start standardEngine "gc").after (ownMoves true ++ [.step 0])).StaysCounted 0 1
    (List.replicate 9 (.step 0)) ∧ ((start standardEngine "gc").after (ownMoves true ++ [.step 0] ++
      List.replicate 9 (.step 0))).isBusy 0 = false := by
  refine ⟨?_, ?_, staysCounted_of_all ?_, ?_⟩ <;> decide +kernel

end Runs

end World

end ManagedHeap
