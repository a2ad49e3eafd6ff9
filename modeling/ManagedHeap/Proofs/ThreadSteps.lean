import ManagedHeap.Proofs.ThreadActs

/-!
# Tasks and moves as doings of threads

**Input.**  A task that a thread performs, an instruction that it begins with, or a move of a run.

**Algorithm.**  One look at each definition that goes through registries and queues; all others are
known to keep their thread where it is.

**Results.**  `World.turn_move`: every move of every run does to the threads one of the things that
`Crew.Turn` lists.
-/

namespace ManagedHeap

namespace World

variable {w w₁ w' : World} {t e : Nat} {q : Nat} {front : List Task} {task : Task} {foreign : Bool}

section Tasks

variable {x : Actor} {reason : Reason} {target : ThreadId}

theorem act_runOperation {op : Operation} (h : w.runOperation t e op = some w') :
    Crew.Act t x w.crew (.registry e op) w'.crew := by
  unfold runOperation at h
  split at h
  · next he =>
      cases h
      exact .misses (by rw [getElem?_registries_crew, he]; rfl)
  · next y hy =>
      split at h
      · cases h
      · next r' p hstep =>
          have hr : w.crew.registries[e]? = some y.registry := by
            rw [getElem?_registries_crew, hy]
            rfl
          have hcrew :
              w'.crew = (w.crew.modifyRegistry e fun _ => r').modify t (Actor.goOn e p) := by
            rw [← crew_modifyRegistry]
            cases p with
            | finished =>
              cases h
              exact Crew.modify_self.symm
            | answered r =>
              cases h
              exact crew_answer r
            | continues op =>
              cases h
              exact crew_push _
          rw [hcrew]
          exact .operates hr hstep

variable (hx : w.crew.actors[t]? = some x)

include hx

theorem exists_record_of_mutator? (h : w.mutator? t e = some m) :
    ∃ a, x.attachment = some a ∧ a.engine = e ∧ m.id = a.id ∧ w.crew.record e a.id = some m := by
  unfold mutator? currentId at h
  rw [attachmentOf_eq hx] at h
  cases ha : x.attachment with
  | none =>
    rw [ha] at h
    cases h
  | some a =>
    rw [ha] at h
    dsimp only at h
    split at h
    · next id y hid hy =>
        split at hid <;> cases hid
        next he => exact ⟨a, rfl, he,
          (Registry.mem_of_get? h).2, by rw [record_crew, hy, Option.bind_some, h]⟩
    · cases h

theorem act_push_checkpoint (haside : task.isAside = true ∨ ∃ i, task = .perform i)
    (htask : task.isOrdinary = true ∨ ∃ i, task = .perform i)
    (hfront : front.all Task.isCommon = true) :
    Crew.Act t x w.crew task ((w.push t front).checkpoint t e).crew := by
  have hmutator : (w.push t front).mutator? t e = w.mutator? t e := by
    have hid : (w.push t front).currentId t e = w.currentId t e := by
      unfold currentId attachmentOf push modifyThread
      dsimp only
      rw [Array.getElem?_modify, if_pos rfl]
      cases w.threads[t]? <;> rfl
    unfold mutator?
    rw [hid]
    rfl
  unfold checkpoint
  rw [hmutator]
  split
  · next m hm =>
      split
      · next hflag =>
          obtain ⟨a, ha, rfl, hid, hrecord⟩ := exists_record_of_mutator? hx hm
          have hcrew : ((w.push t front).push t [.registry a.engine (.poll m.id)]).crew =
              w.crew.modify t (Actor.push (.registry a.engine (.poll a.id) :: front)) := by
            rw [crew_push, crew_push, hid]
            exact Crew.modify_comp
          rw [hcrew]
          exact .polls haside ha hrecord hflag hfront htask
      · exact (gets_push rfl hfront).act hx haside htask
  · exact (gets_push rfl hfront).act hx haside htask

theorem act_checkpoint (haside : task.isAside = true)
    (htask : task.isOrdinary = true) : Crew.Act t x w.crew task (w.checkpoint t e).crew := by
  have hnothing : w.push t [] = w := by
    have hthreads : w.threads.modify t (fun x => { x with tasks := [] ++ x.tasks }) = w.threads :=
      modify_eq_self fun _ _ => rfl
    unfold push modifyThread
    rw [hthreads]
  have hact : Crew.Act t x w.crew task ((w.push t []).checkpoint t e).crew :=
    act_push_checkpoint hx (.inl haside) (.inl htask) rfl
  rwa [hnothing] at hact

theorem act_runBlocking {hold : Hold} {body : Task} :
    Crew.Act t x w.crew (.blocking hold body) (w.runBlocking t hold body).crew := by
  have hnested : Crew.Act t x w.crew (.blocking hold body) (w.push t [body]).crew := by
    rw [crew_push]
    exact .nests
  unfold runBlocking enters
  rw [attachmentOf_eq hx]
  cases ha : x.attachment with
  | none => exact hnested
  | some a =>
    dsimp only
    by_cases hin : a.inRegion = true
    · rw [if_pos hin]
      exact hnested
    · rw [if_neg hin]
      dsimp only
      rw [crew_push, crew_setRegion, Crew.modify_comp]
      exact .blocks ha (by simpa using hin)

theorem act_adopt : Crew.Act t x w.crew (.adopt e foreign) (w.adopt t e foreign).crew := by
  unfold adopt
  rw [replyOf_eq hx]
  split
  · next id hreply =>
      rw [crew_push, crew_modifyThread (g := fun x =>
          { x with attachment := some ⟨e, id, foreign, false⟩ }) fun _ => rfl, Crew.modify_comp]
      exact .adopts hreply
  · next hreply => exact .stays hreply

theorem act_beginCycle :
    Crew.Act t x w.crew (.beginCycle e reason) (w.beginCycle t e reason).crew := by
  unfold beginCycle
  split
  · exact (gets_of_crew rfl).act hx (.inl rfl) (.inl rfl)
  · next y hy =>
      have hid : w.currentId t e = x.idIn e := by
        unfold currentId Actor.idIn
        rw [attachmentOf_eq hx]
        cases x.attachment <;> rfl
      refine act_of_goes hx (.inl rfl) (by rw [crew_push, crew_log]) ?_
      rw [hid]
      have hfront : [Task.dispatch e (.gcStarted (y.collector.cycles + 1)),
            .setPhase e .stopping].all Task.isCommon = true := rfl
      exact .begins (Array.getElem?_eq_some_iff.mp hy).1 hfront

theorem act_pauseWorld {cycle : Nat} :
    Crew.Act t x w.crew (.pause e cycle reason) (w.pauseWorld t e cycle reason).crew := by
  unfold pauseWorld
  rw [replyOf_eq hx]
  split
  · next hreply _ =>
      exact act_of_goes hx (.inl rfl) (by rw [crew_push, crew_setPhase, crew_modifyHeap,
          crew_report, crew_log]) (.pauses hreply rfl)
  · next hother =>
      refine act_of_goes hx (.inl rfl) ((crew_setPhase _).trans Crew.modify_self.symm) ?_
      exact .fails rfl (.inl ⟨cycle, reason, rfl⟩) (fun he k hk =>
        hother k _ hk (Array.getElem?_eq_getElem he)) List.all_nil

/-- A thread binds the value of its call, and may keep a world standing still from then on. -/
theorem act_bindValue {f : Finish} (htask : task = .finish f ∨ ∃ e, task = .conclude e f)
    (hcrew : w'.crew = (w.bindValue t f).2.crew.modify t (Actor.push front))
    (hfront : front.all Task.isCommon = true) : Crew.Act t x w.crew task w'.crew := by
  have haside : task.isAside = true := by rcases htask with rfl | ⟨e, rfl⟩ <;> rfl
  have hordinary : task.isOrdinary = f.isOrdinary := by rcases htask with rfl | ⟨e, rfl⟩ <;> rfl
  cases hf : f.isOrdinary with
  | true =>
    rw [crew_bindValue hf] at hcrew
    exact act_of_goes hx (.inl haside) hcrew
      (.goesOn (a := none) (.inl (hordinary.trans hf)) hfront)
  | false =>
    cases f with
    | worldStopped e =>
      unfold bindValue at hcrew
      dsimp only at hcrew
      rw [replyOf_eq hx] at hcrew
      split at hcrew
      · next hreply =>
          rw [crew_modifyThread (g := fun x => { x with worlds := e :: x.worlds }) fun _ => rfl,
            Crew.modify_comp] at hcrew
          exact act_of_goes hx (.inl haside) hcrew (.stands htask hreply hfront)
      · next hother =>
          exact act_of_goes hx (.inl haside) hcrew
            (.fails (hordinary.trans hf) (.inr htask) (fun _ k hk => hother k hk) hfront)
    | _ => cases hf

theorem act_interrupt :
    Crew.Act t x w.crew (.interrupt e target) (w.interrupt t e target).crew := by
  unfold interrupt
  split
  · exact (gets_of_crew rfl).act hx (.inl rfl) (.inl rfl)
  · next y hy =>
      split
      · exact (gets_answer rfl _).act hx (.inl rfl) (.inl rfl)
      · next m hm =>
          have hrecord : w.crew.record e target = some m := by
            unfold Registry.find at hm
            rw [record_crew, hy, Option.bind_some]
            cases hget : y.registry.get? target with
            | none =>
              rw [hget] at hm
              cases hm
            | some m' =>
              rw [hget] at hm
              cases hm
              rfl
          rw [crew_push, crew_answer, crew_modifyRegistry, Crew.modify_comp]
          exact .interrupts hrecord

omit hx

theorem act_wakeBlocked :
    Crew.Act t x w.crew (.wakeBlocked e target) (w.wakeBlocked t e target).crew := by
  have hblocker : (w.engines[e]?).bind (fun x => (x.registry.get? target).bind (·.blocker)) =
      (w.crew.record e target).bind (·.blocker) := by
    rw [record_crew]
    cases w.engines[e]? <;> rfl
  unfold wakeBlocked
  rw [hblocker]
  split
  · next q hq =>
      rw [crew_push]
      exact .finds hq
  · next hq => exact .passes hq

theorem modifyQueue_of_none (hq : w.queues[q]? = none) : w.modifyQueue q f = w := by
  unfold modifyQueue
  rw [modify_eq_self fun queue h => by rw [hq] at h; cases h]

theorem stand_eq (hq : w.queues[q]? = some queue) : w.crew.stand q = queue.stand := by
  show w.stand q = queue.stand
  unfold stand
  rw [hq]

theorem crew_modifyQueue_of_sleepers {g : Stand → Stand}
    (h : ∀ queue, (f queue).stand = g queue.stand) (hnobody : g ⟨[], []⟩ = ⟨[], []⟩) :
    (w.modifyQueue q f).crew = w.crew.modifyStand q g := by
  cases hq : w.queues[q]? with
  | some queue => exact crew_modifyQueue hq (h queue)
  | none =>
    have hstand : w.crew.stand q = ⟨[], []⟩ := by
      show w.stand q = _
      unfold stand
      rw [hq]
    rw [modifyQueue_of_none hq, Crew.modifyStand_self (by rw [hstand, hnobody])]

theorem act_wakeQueue :
    Crew.Act t x w.crew (.wakeQueue q) (w.modifyQueue q Queue.wakeAll).crew := by
  rw [crew_modifyQueue_of_sleepers (g := Stand.wakeAll) (fun _ => rfl) rfl]
  exact .wakes

include hx

theorem act_pushQueue {h : Handle} :
    Crew.Act t x w.crew (.pushQueue q h) (w.pushQueue q h).crew := by
  have hheld : (w.modifyReference h Heap.retain).crew = w.crew := crew_modifyReference _ _
  unfold pushQueue
  cases hq : w.queues[q]? with
  | some queue =>
    rw [crew_modifyQueue (g := Stand.push h) (w := w.modifyReference h Heap.retain) hq rfl, hheld]
    exact .enqueues
  | none =>
    rw [modifyQueue_of_none (w := w.modifyReference h Heap.retain) hq]
    exact (gets_of_crew hheld).act hx (.inl rfl) (.inl rfl)

theorem act_pollQueue : Crew.Act t x w.crew (.pollQueue q) (w.pollQueue t q).crew := by
  unfold pollQueue
  split
  · exact (gets_answer rfl _).act hx (.inl rfl) (.inl rfl)
  · next h rest hpop =>
      obtain ⟨queue, hq, hpop⟩ := Option.bind_eq_some_iff.mp hpop
      unfold Queue.pop? at hpop
      split at hpop <;> cases hpop
      next entries hentries =>
        rw [crew_push, crew_modifyQueue (g := fun s => { s with entries := entries }) hq rfl]
        exact .takes (by rw [stand_eq hq]; exact hentries)

theorem act_setBlocker {q : Option Nat} :
    Crew.Act t x w.crew (.setBlocker q) (w.setBlocker t q).crew := by
  unfold setBlocker
  rw [attachmentOf_eq hx]
  cases ha : x.attachment with
  | none => exact .recordsNothing ha
  | some a =>
    dsimp only
    rw [crew_modifyRegistry]
    exact .recordsBlocker ha

omit hx in
theorem crew_clearInterrupt (ha : w.attachmentOf t = some a) :
    (w.clearInterrupt t).crew = w.crew.modifyRegistry a.engine (·.clearInterrupt a.id) := by
  unfold clearInterrupt
  rw [ha]
  exact crew_modifyRegistry _

theorem act_awaitEntry {ms : Option Nat} (h : w.awaitEntry t q ms = some w') :
    Crew.Act t x w.crew (.awaitEntry q ms) w'.crew := by
  unfold awaitEntry at h
  rw [isInterrupted_eq hx] at h
  cases hq : w.queues[q]? with
  | none =>
    rw [hq] at h
    cases h
    have hstand : w.crew.stand q = ⟨[], []⟩ := by
      show w.stand q = _
      unfold stand
      rw [hq]
    have hout := @Crew.Act.timesOut t x w.crew q ms (congrArg Stand.entries hstand)
    rw [Crew.modifyStand_self (by rw [hstand]; rfl)] at hout
    rw [crew_answer]
    exact hout
  | some queue =>
    rw [hq] at h
    dsimp only at h
    split at h
    · cases h
    · have hentries : (w.crew.stand q).entries = queue.entries := by rw [stand_eq hq]; rfl
      unfold Queue.await Queue.pop? at h
      cases hqueue : queue.entries with
      | cons entry rest =>
        simp only [Queue.wake, hqueue] at h
        cases h
        rw [crew_push,
          crew_modifyQueue (g := fun s => { s.wake t with entries := rest }) hq (by rfl)]
        exact .takesEntry (hentries.trans hqueue)
      | nil =>
        have hempty : (w.crew.stand q).entries = [] := hentries.trans hqueue
        have hwoken : (w.modifyQueue q fun _ => queue.wake t).crew =
            w.crew.modifyStand q (Stand.wake t) := crew_modifyQueue hq rfl
        have hlook : (queue.wake t).entries = [] := hqueue
        rw [hlook] at h
        dsimp only at h
        cases hflag : w.crew.isInterrupted x with
        | true =>
          rw [hflag, if_pos rfl] at h
          cases h
          obtain ⟨a, ha⟩ : ∃ a, x.attachment = some a := by
            unfold Crew.isInterrupted at hflag
            split at hflag
            · next a ha => exact ⟨a, ha⟩
            · cases hflag
          rw [crew_answer, crew_clearInterrupt (by rw [← ha]; exact attachmentOf_eq hx), hwoken]
          exact .breaksOff hempty ha hflag
        | false =>
          rw [hflag, if_neg (by simp)] at h
          by_cases hout : (w.isExpired t || decide (ms = some 0)) = true
          · rw [if_pos hout] at h
            cases h
            rw [crew_answer, hwoken]
            exact .timesOut hempty
          · rw [if_neg hout] at h
            cases h
            rw [crew_push, crew_modifyQueue (g := fun s => (s.wake t).sleep t) hq
              (by unfold Queue.stand Stand.wake Stand.sleep Queue.wake; rw [hqueue])]
            exact .sleeps hempty hflag

end Tasks

section Instructions

variable {x : Actor} {i : Instruction} {label : String} {made : Array Registry}
  {hired : Array Actor} (hx : w.crew.actors[t]? = some x)

include hx

theorem act_of_crew (h : w'.crew = w.crew) : Crew.Act t x w.crew (.perform i) w'.crew :=
  (gets_of_crew h).act hx (.inr ⟨i, rfl⟩) (.inr ⟨i, rfl⟩)

theorem act_complete (a : Answer) : Crew.Act t x w.crew (.perform i) (w.complete t a).crew :=
  act_of_crew hx (crew_complete a)

theorem act_attach (he : (w.engines[e]?).isSome = true) (hfront : front.all Task.isCommon = true) :
    Crew.Act t x w.crew (.perform i)
    (((w.retainEngine e).push t front).attach t e name foreign).crew := by
  have hheld : (w.retainEngine e).crew = w.crew := crew_retainEngine
  have hpushed : ((w.retainEngine e).push t front).crew.actors[t]? = some (x.push front) := by
    rw [crew_push, hheld]
    exact Crew.getElem?_modify_self hx
  unfold attach
  rw [attachmentOf_eq hpushed, show (x.push front).attachment = x.attachment from rfl]
  cases ha : x.attachment with
  | some a =>
    exact ((gets_push hheld hfront).answer _).act hx (.inr ⟨i, rfl⟩) (.inr ⟨i, rfl⟩)
  | none =>
    dsimp only
    rw [crew_push, crew_push, hheld, Crew.modify_comp]
    refine .joins ?_ ha hfront
    rw [getElem?_registries_crew, Option.isSome_map]
    exact he

theorem act_detach (hfront : front.all Task.isCommon = true) :
    Crew.Act t x w.crew (.perform i) ((w.push t front).detach t foreign).crew := by
  have hpushed : (w.push t front).crew.actors[t]? = some (x.push front) := by
    rw [crew_push]
    exact Crew.getElem?_modify_self hx
  have hrefused : ∀ r : Reply,
      Crew.Act t x w.crew (.perform i) ((w.push t front).answer t r).crew :=
    fun r => ((gets_push rfl hfront).answer r).act hx (.inr ⟨i, rfl⟩) (.inr ⟨i, rfl⟩)
  unfold detach
  rw [attachmentOf_eq hpushed]
  split
  · next a ha =>
      split
      · rw [crew_push, crew_answer, crew_push, Crew.modify_comp, Crew.modify_comp]
        exact .quits ha hfront
      · exact hrefused _
  · exact hrefused _

theorem act_performEnterBlocking :
    Crew.Act t x w.crew (.perform i) (w.performEnterBlocking t).crew := by
  have hscope : ∀ entered, (w.modifyThread t fun x =>
        { x with scopes := .blocking entered :: x.scopes }).crew = w.crew :=
    fun entered => crew_modifyThread_of_actor fun _ => rfl
  have hnested : Crew.Act t x w.crew (.perform i) ((w.modifyThread t fun x =>
        { x with scopes := .blocking false :: x.scopes }).complete t .null).crew :=
    act_of_crew hx ((crew_complete _).trans (hscope false))
  unfold performEnterBlocking enters
  dsimp only
  rw [attachmentOf_eq hx]
  cases ha : x.attachment with
  | none => exact hnested
  | some a =>
    dsimp only
    by_cases hin : a.inRegion = true
    · rw [if_pos hin]
      exact hnested
    · rw [if_neg hin]
      dsimp only
      rw [crew_push, crew_setRegion, hscope, Crew.modify_comp]
      exact .enters ha (by simpa using hin) rfl

omit hx

theorem exists_scopes_of_scopeOf (hy : w.threads[t]? = some y)
    (h : w.scopeOf t = some scope) : ∃ rest, y.scopes = scope :: rest := by
  have hhead : y.scopes.head? = some scope := by simpa [scopeOf, hy] using h
  cases hs : y.scopes with
  | nil => simp [hs] at hhead
  | cons s rest =>
    rw [hs] at hhead
    cases hhead
    exact ⟨rest, rfl⟩

theorem crew_leaveScope_of (h : w.scopeOf t = some scope) (hg : ∀ (y : Thread) rest,
      y.scopes = scope :: rest → ({ y with scopes := rest } : Thread).actor = g y.actor) :
    (w.leaveScope t).crew = w.crew.modify t g := by
  unfold leaveScope crew modifyThread Crew.modify
  congr 1
  apply Array.ext_getElem?
  intro j
  simp only [Array.getElem?_map, Array.getElem?_modify]
  split
  · next hj =>
      subst hj
      cases hy : w.threads[t]? with
      | none => rfl
      | some y =>
        obtain ⟨rest, hrest⟩ := exists_scopes_of_scopeOf hy h
        simp only [Option.map_some, hrest, List.drop_succ_cons, List.drop_zero, hg y rest hrest]
  · rfl

theorem crew_leaveScope (h : w.scopeOf t = some (.blocking entered)) :
    (w.leaveScope t).crew = w.crew := by
  rw [crew_leaveScope_of (g := fun x => x) h fun y rest hrest => ?_, Crew.modify_self]
  rw [Thread.actor, Thread.actor, hrest]
  rfl

include hx

theorem act_performReleaseWorld :
    Crew.Act t x w.crew (.perform (.releaseWorld label)) (w.performReleaseWorld t label).crew := by
  unfold performReleaseWorld
  split
  · next e h =>
      rw [getElem?_actors] at hx
      obtain ⟨y, hy, rfl⟩ := Option.map_eq_some_iff.mp hx
      obtain ⟨rest, hrest⟩ := exists_scopes_of_scopeOf hy h
      have hworlds : y.actor.worlds = e :: rest.filterMap Scope.world? := by
        simp [Thread.actor, hrest, Scope.world?]
      have hleft :=
        crew_leaveScope_of (g := fun x => { x with worlds := x.worlds.tail }) h fun z rest hz => by
        simp [Thread.actor, hz, Scope.world?]
      have hcrew : ((w.leaveScope t).push t [.registry e .releaseWorld,
            .finish (.other .null)]).crew = w.crew.modify t fun x => { x.push
            [.registry e .releaseWorld, .finish (.other .null)] with worlds := x.worlds.tail } := by
        rw [crew_push, hleft, Crew.modify_comp]
        rfl
      refine act_of_goes (by rw [getElem?_actors, hy]; rfl) (.inr ⟨_, rfl⟩) hcrew ?_
      rw [hworlds]
      exact .releases hworlds (show [Task.finish (.other .null)].all Task.isCommon = true from rfl)
  · refine act_of_crew hx ?_
    unfold withEngine
    (repeat' split) <;> simp

theorem act_performLeaveBlocking :
    Crew.Act t x w.crew (.perform i) (w.performLeaveBlocking t label).crew := by
  unfold performLeaveBlocking
  rw [attachmentOf_eq hx]
  split
  · next hscope => exact act_of_crew hx (by rw [crew_complete, crew_leaveScope hscope])
  · next hscope =>
      split
      · next a ha =>
          rw [crew_push, crew_leaveScope hscope]
          exact .leaves ha rfl
      · exact act_of_crew hx (by rw [crew_complete, crew_leaveScope hscope])
  · unfold withEngine
    split
    · exact act_complete hx _
    · split
      · exact act_complete hx _
      · exact act_complete hx _

omit hx

/-- Engines that are made, and threads that run finalizers. -/
structure Extends (w w' : World) (made : Array Registry) (hired : Array Actor) : Prop where
  crew : w'.crew = { w.crew with
    registries := w.crew.registries ++ made, actors := w.crew.actors ++ hired }
  made : ∀ r ∈ made, ∃ ms, r = { timeout := ms }
  hired : ∀ y ∈ hired, ∃ e, y = ⟨none, [], [.serve e], .unit⟩

theorem extends_makeEngine {s : Settings} {disk : Disk} {made : World}
    (h : w.makeEngine s disk = .ok (e, made)) : ∃ r, Extends w made #[r] #[] := by
  unfold makeEngine at h
  split at h <;> cases h
  next x emission hx =>
    refine ⟨x.registry, ?_, ?_, by simp⟩
    · unfold crew emit
      dsimp only
      rw [Array.map_push, Array.push_eq_append, Array.append_empty]
      rfl
    · unfold Engine.ofSettings at hx
      split at hx <;> cases hx
      simp

theorem extends_startEngine (h : w.startEngine e = .ok ready) :
    ∃ hired, Extends w ready #[] hired := by
  unfold startEngine at h
  split at h
  · cases h
    exact ⟨#[], by simp, by simp, by simp⟩
  · next x hx =>
      split at h
      · cases h
      · next started records hstart =>
          have hrunning : ((w.modifyEngine e fun _ => started).report records).crew = w.crew := by
            have hset : w.modifyEngine e (fun _ => started) = w.modifyEngine e fun y =>
                { started with
                registry := y.registry } := by
              unfold modifyEngine
              rw [modify_congr fun y hy => ?_]
              rw [hx] at hy
              cases hy
              rcases Engine.eq_of_start hstart with ⟨-, -, rfl⟩ | ⟨-, rfl⟩ <;> rfl
            show (w.modifyEngine e fun _ => started).crew = w.crew
            rw [hset]
            exact crew_modifyEngine fun _ => rfl
          dsimp only at h
          split at h <;> cases h
          · refine ⟨#[⟨none, [], [.serve e], .unit⟩], ?_, by simp, by simp⟩
            unfold spawn
            dsimp only
            have hspawn : ∀ (v : World) y, World.crew { v with threads := v.threads.push y } =
                { v.crew with actors := v.crew.actors ++ #[y.actor] } := by
              intro v y
              unfold crew
              dsimp only
              rw [Array.map_push, Array.push_eq_append]
              rfl
            rw [hspawn, hrunning, Array.append_empty]
            rfl
          · exact ⟨#[], by rw [hrunning]; simp, by simp, by simp⟩

theorem Extends.trans {w₂ : World} {made₂ : Array Registry} {hired₂ : Array Actor}
    (h : Extends w w₁ made hired) (h₂ : Extends w₁ w₂ made₂ hired₂) :
    Extends w w₂ (made ++ made₂) (hired ++ hired₂) where
  crew := by
    rw [h₂.crew, h.crew]
    simp only [Array.append_assoc]
  made r hr := (Array.mem_append.mp hr).elim (h.made r) (h₂.made r)
  hired y hy := (Array.mem_append.mp hy).elim (h.hired y) (h₂.hired y)

theorem extends_start (s : EngineSpec) (label : String) :
    ∃ made hired, Extends {} (start s label) made hired := by
  unfold start begin
  split
  · next w hw =>
      split at hw
      · cases hw
      · split at hw
        · cases hw
        · next e made hm =>
            obtain ⟨r, hmade⟩ := extends_makeEngine hm
            split at hw <;> cases hw
            next ready hready =>
              split at hready
              · obtain ⟨hired, hstarted⟩ := extends_startEngine hready
                have hall := hmade.trans hstarted
                exact ⟨_, _, hall.crew, hall.made, hall.hired⟩
              · cases hready
                exact ⟨_, _, hmade.crew, hmade.made, hmade.hired⟩
  · exact ⟨#[], #[], by simp, by simp, by simp⟩

theorem Extends.act (h : Extends w w₁ made hired)
    (hcrew : w'.crew = w₁.crew.modify t (Actor.push front))
    (hfront : front.all Task.isCommon = true) : Crew.Act t x w.crew (.perform i) w'.crew := by
  rw [hcrew, h.crew]
  exact .opens h.made h.hired hfront

theorem Extends.act_complete (h : Extends w w₁ made hired) (hcrew : w'.crew = w₁.crew) :
    Crew.Act t x w.crew (.perform i) (w'.complete t a).crew := by
  have hnothing : (w'.complete t a).crew = w₁.crew.modify t (Actor.push []) := by
    rw [crew_complete, hcrew]
    exact Crew.modify_self.symm
  exact h.act hnothing rfl

include hx

theorem act_performMakeEngine :
    Crew.Act t x w.crew (.perform i) (w.performMakeEngine t label s).crew := by
  unfold performMakeEngine
  split
  · exact act_complete hx _
  · split
    · exact act_complete hx _
    · next e made hmake =>
        obtain ⟨r, hmade⟩ := extends_makeEngine hmake
        split
        · exact hmade.act_complete rfl
        · next ready hready =>
            obtain ⟨hired, hall⟩ : ∃ hired, Extends w ready #[r] hired := by
              split at hready
              · obtain ⟨hired, hstarted⟩ := extends_startEngine hready
                exact ⟨hired, by simpa using hmade.trans hstarted⟩
              · cases hready
                exact ⟨#[], hmade⟩
            dsimp only
            split
            · exact hall.act (crew_push _) rfl
            · exact hall.act_complete rfl

theorem act_performForeign {call : ForeignCall} :
    Crew.Act t x w.crew (.perform (.foreign call)) (w.performForeign t call).crew := by
  have hcalm : (Instruction.foreign call).isQuiet = true →
      Crew.Act t x w.crew (.perform (.foreign call)) (w.performForeign t call).crew :=
    fun h => (gets_performForeign h).act hx (.inr ⟨_, rfl⟩) (.inr ⟨_, rfl⟩)
  cases call with
  | create label settings =>
    simp only [performForeign]
    split
    · exact act_of_crew hx ((crew_complete _).trans rfl)
    · next e made hmake =>
        obtain ⟨r, hmade⟩ := extends_makeEngine hmake
        split
        · exact hmade.act_complete rfl
        · next ready hready =>
            obtain ⟨hired, hstarted⟩ := extends_startEngine hready
            have hall := hmade.trans hstarted
            split
            · exact hall.act (crew_push _) rfl
            · exact hall.act_complete rfl
  | attach | detach | poll =>
    simp only [performForeign, withForeign]
    (repeat' split) <;> first
      | exact act_complete hx _
      | exact act_attach hx (by simp [*]) rfl
      | exact act_detach hx rfl
      | exact act_push_checkpoint hx (.inr ⟨_, rfl⟩) (.inr ⟨_, rfl⟩) rfl
  | _ => exact hcalm rfl

theorem act_perform : Crew.Act t x w.crew (.perform i) (w.perform t i).crew := by
  have hcalm : i.isQuiet = true → Crew.Act t x w.crew (.perform i) (w.perform t i).crew :=
    fun h => (gets_perform h).act hx (.inr ⟨_, rfl⟩) (.inr ⟨_, rfl⟩)
  cases i with
  | makeEngine label s => exact act_performMakeEngine hx
  | start label =>
    simp only [perform, withEngine]
    split
    · exact act_complete hx _
    · split
      · exact act_complete hx _
      · split
        · next started hstarted =>
            obtain ⟨hired, hall⟩ := extends_startEngine hstarted
            exact hall.act_complete rfl
        · exact act_complete hx _
  | attach | detach | safepoint | enterBlocking =>
    simp only [perform, withEngine, withAttachment, performDetach]
    (repeat' split) <;> first
      | exact act_complete hx _
      | exact act_attach hx (by simp [*]) rfl
      | exact act_detach hx rfl
      | exact act_push_checkpoint hx (.inr ⟨_, rfl⟩) (.inr ⟨_, rfl⟩) rfl
      | exact act_performEnterBlocking hx
  | takeInterrupt =>
    simp only [perform, withAttachment]
    split
    · exact act_complete hx _
    · next a ha =>
        split
        · exact act_complete hx _
        · rw [crew_complete, crew_clearInterrupt ha]
          exact .clearsFlag ((attachmentOf_eq hx).symm.trans ha)
  | leaveBlocking label => exact act_performLeaveBlocking hx
  | releaseWorld label => exact act_performReleaseWorld hx
  | stopWorld label initiator =>
    simp only [perform, withEngine]
    split
    · exact act_complete hx _
    · split
      · exact act_complete hx _
      · next hy =>
          exact act_of_goes hx (.inr ⟨_, rfl⟩) (crew_push _)
            (.stops (Array.getElem?_eq_some_iff.mp hy).1)
  | foreign call => exact act_performForeign hx
  | _ => exact hcalm rfl

end Instructions

section Moves

variable {x : Actor}

/-- **Every task does to the others one of the things that are listed.** -/
theorem act_runTask (hx : w.crew.actors[t]? = some x) (h : w.runTask t task = some w') :
    Crew.Act t x w.crew task w'.crew := by
  have hcalm : task.isQuiet = true → Crew.Act t x w.crew task w'.crew :=
    fun hq => (gets_runTask hq h).act hx (.inl (Task.isAside_of_isQuiet hq).1)
      (.inl (Task.isAside_of_isQuiet hq).2)
  cases task with
  | registry e op => exact act_runOperation h
  | checkpoint e =>
    cases h
    exact act_checkpoint hx rfl rfl
  | blocking hold body =>
    cases h
    exact act_runBlocking hx
  | endRegion =>
    cases h
    rw [crew_setRegion]
    exact .ends
  | adopt e foreign =>
    cases h
    exact act_adopt hx
  | forget =>
    cases h
    unfold forget
    rw [crew_modifyThread (g := fun x => { x with attachment := none }) fun _ => rfl]
    exact .forgets
  | selfPoll e target =>
    cases h
    unfold selfPoll
    split
    · exact act_checkpoint hx rfl rfl
    · exact (gets_of_crew rfl).act hx (.inl rfl) (.inl rfl)
  | beginCycle e reason =>
    cases h
    exact act_beginCycle hx
  | pause e cycle reason =>
    cases h
    exact act_pauseWorld hx
  | finish f =>
    cases h
    exact act_bindValue hx (.inl rfl) ((crew_complete _).trans Crew.modify_self.symm) List.all_nil
  | conclude e f =>
    cases h
    exact act_bindValue hx (.inr ⟨e, rfl⟩) (crew_push _) rfl
  | interrupt e target =>
    cases h
    exact act_interrupt hx
  | wakeBlocked e target =>
    cases h
    exact act_wakeBlocked
  | wakeQueue q =>
    cases h
    exact act_wakeQueue
  | pushQueue q handle =>
    cases h
    exact act_pushQueue hx
  | pollQueue q =>
    cases h
    exact act_pollQueue hx
  | waitOnQueue q ms =>
    cases h
    rw [crew_push]
    exact .waits
  | setBlocker q =>
    cases h
    exact act_setBlocker hx
  | awaitEntry q ms => exact act_awaitEntry hx h
  | perform i =>
    cases h
    exact act_perform hx
  | _ => exact hcalm rfl

theorem act_step (h : w.step t = some w') :
    ∃ x task rest, w.crew.actors[t]? = some x ∧ x.tasks = task :: rest ∧
    Crew.Act t { x with tasks := rest } (w.crew.take t rest) task w'.crew := by
  unfold step at h
  split at h
  · cases h
  · next y hy =>
      split at h
      · cases h
      · next task rest htasks =>
          obtain ⟨w₁, hrun, rfl⟩ := Option.map_eq_some_iff.mp h
          have hx : w.crew.actors[t]? = some y.actor := by rw [getElem?_actors, hy]; rfl
          have hact := act_runTask (by rw [crew_take]; exact Crew.getElem?_modify_self hx) hrun
          rw [crew_take] at hact
          have hfresh : (w₁.modifyThread t fun x => { x with expired := false }).crew = w₁.crew :=
            crew_modifyThread_of_actor fun _ => rfl
          rw [hfresh]
          exact ⟨y.actor, task, rest, hx, htasks, hact⟩

theorem mem_asleep_of_look {ms : Option Nat} {rest : List Task} (h : w.step t = none)
    (hx : w.crew.actors[t]? = some x) (htasks : x.tasks = .awaitEntry q ms :: rest) :
    t ∈ (w.crew.stand q).asleep := by
  rw [getElem?_actors] at hx
  obtain ⟨y, hy, rfl⟩ := Option.map_eq_some_iff.mp hx
  replace htasks : y.tasks = .awaitEntry q ms :: rest := htasks
  have hrun : (w.modifyThread t fun z => { z with tasks := rest }).awaitEntry t q ms = none := by
    simpa only [step, hy, htasks, runTask, Option.map_eq_none_iff] using h
  unfold awaitEntry at hrun
  split at hrun
  · cases hrun
  · next queue hq =>
      split at hrun
      · next hsleeps =>
          have hasleep : t ∈ queue.asleep := by
            simpa [Queue.isAsleep] using (Bool.and_eq_true_iff.mp hsleeps).1
          have hq' : w.queues[q]? = some queue := hq
          show t ∈ (w.stand q).asleep
          unfold stand
          rw [hq']
          exact hasleep
      · split at hrun <;> cases hrun

/-- **Every move does to the threads of a world one of the things that are listed.** -/
theorem turn_move (m : Move) : Crew.Turn m w.crew (w.move m).crew := by
  cases m with
  | step t =>
    simp only [move]
    cases h : w.step t with
    | none => exact .waits fun hx htasks => mem_asleep_of_look h hx htasks
    | some w' =>
      obtain ⟨x, task, rest, hx, htasks, hact⟩ := act_step h
      exact .acts hx htasks hact
  | expire t =>
    rw [show (w.move (.expire t)).crew = w.crew from crew_modifyThread_of_actor fun _ => rfl]
    exact .rests (by rintro _ ⟨⟩)
  | hold held | takeOutput => exact .rests (by rintro _ ⟨⟩)
  | favour q t =>
    have hcrew : (w.modifyQueue q (·.favour t)).crew = w.crew.modifyStand q (Stand.favour t) := by
      refine crew_modifyQueue_of_sleepers (fun queue => ?_) rfl
      unfold Queue.favour Stand.favour
      rw [show queue.stand.asleep = queue.asleep from rfl]
      split <;> rfl
    show Crew.Turn (.favour q t) w.crew (w.modifyQueue q (·.favour t)).crew
    rw [hcrew]
    exact .favours
  | call name =>
    simp only [move, threadNamed]
    split
    · exact .rests (by rintro _ ⟨⟩)
    · have hcrew : (w.spawn { name := name }).2.crew =
          { w.crew with actors := w.crew.actors.push ⟨none, [], [], .unit⟩ } := by
        unfold crew spawn
        dsimp only
        rw [Array.map_push]
        rfl
      show Crew.Turn (.call name) w.crew (w.spawn { name := name }).2.crew
      rw [hcrew]
      exact .comes
  | instruct t number timed i =>
    simp only [move]
    split
    · exact .rests (by rintro _ ⟨⟩)
    · next hbusy =>
        rw [crew_modifyThread (g := fun x => { x with tasks := [.perform i] }) fun _ => rfl]
        cases hy : w.threads[t]? with
        | none =>
          have hnobody : w.crew.modify t (fun x => { x with tasks := [.perform i] }) = w.crew := by
            rw [Crew.modify, modify_eq_self fun x hx => ?_]
            rw [getElem?_actors, hy] at hx
            cases hx
          rw [hnobody]
          exact .rests (by rintro _ ⟨⟩)
        | some y =>
          have hx : w.crew.actors[t]? = some y.actor := by rw [getElem?_actors, hy]; rfl
          exact .begins hx (tasks_of_not_busy hy hbusy)

end Moves

end World

end ManagedHeap
