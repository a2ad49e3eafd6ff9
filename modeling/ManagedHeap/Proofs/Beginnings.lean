import ManagedHeap.Proofs.Rewriting

/-!
# Stacks along runs

**Input.**  An instruction that a thread begins with, a move of a run, or a run.

**Algorithm.**  An instruction begins with tasks of a few kinds.  A move rewrites the stack of one
thread at its head, gives a thread its first task, or makes threads and engines; all other stacks
stay as they are.

**Results.**  `World.rearranges_move` says what a move does to stacks and to what engines show.
`World.arranged_after`: what productions keep of the order in which tasks stand on a stack holds
along every run.
-/

namespace ManagedHeap

namespace World

variable {w w₁ w' : World} {t e : Nat} {label : String} {rest tasks : List Task}

section Instructions

variable {l : List Task} {f : Finish} {R : Nat → Prop}

/-- Whether an instruction resets the statistics of an engine. -/
def Resets (w : World) (i : Instruction) (e : Nat) : Prop :=
  ∃ label, i = .resetStatistics label ∧ w.names.engines.get? label = some e

/-- An instruction begins with tasks, after it has made engines, hired threads, dealt with agents
and perhaps reset what some engines show. -/
def Begins (R : Nat → Prop) (w : World) (t : Nat) (w' : World) : Prop :=
  ∃ tasks a f, Opening w.engines w.names.agents tasks ∧ w.view.Grows R f ∧
    w'.view = f.turn t tasks a

theorem begins (h : Opening w.engines w.names.agents l) (hf : w'.view = w.view.turn t l a) :
    w.Begins R t w' :=
  ⟨l, a, w.view, h, .refl, hf⟩

theorem begins_nothing (hf : w'.view = w.view) : w.Begins R t w' :=
  begins (.plain rfl) (by rw [hf, Floor.turn_nil])

theorem begins_plain (hl : l.all Task.isOpening = true) (hf : w'.view = w.view.turn t l none) :
    w.Begins R t w' :=
  begins (.plain hl) hf

theorem begins_grown {f : Floor} (hl : l.all Task.isOpening = true) (hgrows : w.view.Grows R f)
    (hf : w'.view = f.turn t l none) : w.Begins R t w' :=
  ⟨l, none, f, .plain hl, hgrows, hf⟩

theorem begins_call (h : Opening w.engines w.names.agents (tasks ++ [.conclude e f])) :
    w.Begins R t (w.call t e tasks f) :=
  begins (a := none) h (by simp [call])

theorem begins_retained (htasks : tasks.all Task.isOpening = true) :
    w.Begins R t ((w.retainEngine e).push t tasks) :=
  begins_plain htasks (by simp)

theorem begins_controlCall
    (h : Opening w.engines w.names.agents (tasks ++ [.releaseAgent a, .finish .plain])) :
    w.Begins R t (w.controlCall t a tasks) := by
  unfold controlCall
  split
  · exact begins h (by rw [view_push]; rfl)
  · exact begins_nothing (by simp)

theorem begins_attach :
    w.Begins R t (((w.retainEngine e).push t [.conclude e f]).attach t e name foreign) := by
  unfold attach
  split
  · next a ha =>
      exact begins (l := [.conclude e f]) (a := some (.failed (.threadAlreadyAttached a.id)))
        (.plain rfl) (by simp)
  · exact begins_plain (l := [.registry e (.attach name), .adopt e foreign, .conclude e f]) rfl
      (by simp)

theorem begins_detach : w.Begins R t ((w.push t [.finish .plain]).detach t foreign) := by
  have stays : w.Begins R t ((w.push t [.finish .plain]).answer t (.flag false)) :=
    begins (l := [.finish .plain]) (a := some (.flag false)) (.plain rfl) (by simp)
  unfold detach
  split
  · next a ha =>
      split
      · exact begins (l := [.registry a.engine (.detach a.id), .forget, .finish .plain])
          (a := some (.flag true)) (.plain rfl) (by simp)
      · exact stays
  · exact stays

theorem begins_checkpoint : w.Begins R t ((w.push t [.finish f]).checkpoint t e) := by
  unfold checkpoint
  split
  · next m hm =>
      split
      · exact begins_plain (l := [.registry e (.poll m.id), .finish f]) rfl (by simp)
      · exact begins_plain (l := [.finish f]) rfl (by simp)
  · exact begins_plain (l := [.finish f]) rfl (by simp)

theorem begins_enqueue : w.Begins R t ((w.push t [.finish .plain]).beginEnqueue t h) :=
  begins_plain (l := [.clearReferent h, .releaseReference h, .finish .plain]) rfl
    (by simp [beginEnqueue])

theorem view_dropNamed (s : Nat × World) (label : String) :
    (dropNamed s label).2.view = s.2.view := by
  unfold dropNamed
  split <;> simp

theorem begins_dropRoots : w.Begins R t (w.performDropRoots t labels) := by
  have hfold : ∀ (labels : List String) s, (labels.foldl dropNamed s).2.view = s.2.view := by
    intro labels
    induction labels with
    | nil => exact fun _ => rfl
    | cons label rest ih => exact fun s => (ih _).trans (view_dropNamed s label)
  exact begins_nothing (by simp [performDropRoots, hfold])

theorem begins_newReference : (w.performNewReference t e label kind r queue).view = w.view := by
  unfold performNewReference
  (repeat' split) <;> simp

theorem begins_enterBlocking : w.Begins R t (w.performEnterBlocking t) := by
  have hinside : ∀ b,
      (w.modifyThread t fun x => { x with scopes := .blocking b :: x.scopes }).view = w.view :=
    fun _ => view_modifyThread fun _ => rfl
  unfold performEnterBlocking
  dsimp only
  split
  · next a ha =>
      exact begins_plain (l := [.registry a.engine (.enterBlocking a.id), .finish (.other .null)])
        rfl (by simp [hinside])
  · exact begins_nothing (by simp [hinside])

theorem begins_leaveBlocking : w.Begins R t (w.performLeaveBlocking t label) := by
  unfold performLeaveBlocking
  split
  · exact begins_nothing (by simp)
  · split
    · next a ha =>
        exact begins_plain (l := [.registry a.engine (.leaveBlocking a.id .any), .endRegion,
            .finish (.other .null)]) rfl (by simp)
    · exact begins_nothing (by simp)
  · unfold withEngine
    (repeat' split) <;> exact begins_nothing (by simp)

theorem begins_releaseWorld : w.Begins R t (w.performReleaseWorld t label) := by
  unfold performReleaseWorld
  split
  · next e he =>
      exact begins_plain (l := [.registry e .releaseWorld, .finish (.other .null)]) rfl (by simp)
  · unfold withEngine
    (repeat' split) <;> exact begins_nothing (by simp)

theorem begins_stopWorld :
    w.Begins R t (w.push t [.registry e (.stopWorld i), .finish (.worldStopped e)]) :=
  begins_plain rfl (view_push _)

theorem grows_releaseAgent (a : AgentHandle) : w.view.Grows R (w.releaseAgent a).view := by
  rcases view_releaseAgent a with hsame | hresigned
  · rw [hsame]
  · rw [hresigned]
    exact .single (.resigns a.engine a.id)

theorem begins_dropAgent : w.Begins R t (w.performDropAgent t label) := by
  unfold performDropAgent
  split
  · exact begins_nothing (by simp)
  · next a ha =>
      have hdrops : w.view.Opens R ({ w with names :=
            { w.names with agents := w.names.agents.erase label } } : World).view := .drops label
      exact begins_grown (l := []) rfl
        ((Relation.ReflTransGen.single hdrops).trans (grows_releaseAgent a)) (by simp)

theorem begins_registerAgent {x : Runtime} {c : Capabilities} {listens : Bool}
    {gate : Option (String × String)} (hx : w.engines[e]? = some x) :
    w.Begins R t (w.performRegisterAgent t e x label c listens gate) := by
  have hregistered : ∀ c l,
      (w.modifyEngine e fun y => { y with agents := (x.agents.register c l).2 }).view =
        w.view.modifyBoard e (.register c l) := fun _ _ => view_modifyEngine_at hx rfl
  have hlt : e < w.view.boards.size := by
    rw [view, Array.size_map]
    exact (Array.getElem?_eq_some_iff.mp hx).1
  have hnamed : ∀ c l records id, w.view.Grows R ({ ((w.modifyEngine e fun y => { y with agents :=
        (x.agents.register c l).2 }).report records).retainAgent ⟨e, id, c⟩ with names :=
        { w.names with agents := w.names.agents.insert label ⟨e, id, c⟩ } } : World).view := by
    intro c l records id
    have hview := congrArg (fun f : Floor =>
          { f with agents := w.names.agents.insert label ⟨e, id, c⟩ }) (hregistered c l)
    exact .single ((congrArg (w.view.Opens R) hview).mpr (.registers hlt c l label id))
  have hends : ∀ {v : World} a, w.view.Grows R v.view → w.Begins R t (v.complete t a) :=
    fun a hv => begins_grown (l := []) rfl hv (by simp)
  unfold performRegisterAgent
  dsimp only
  split
  · exact hends _ ((hnamed _ _ _ _).trans (grows_releaseAgent _))
  · exact hends _ (hnamed _ _ _ _)

theorem view_makeEngine (h : w.makeEngine s disk = .ok (e, w')) : w.view.Grows R w'.view := by
  unfold makeEngine Engine.ofSettings at h
  cases hfault : s.fault? with
  | some f => simp [hfault] at h
  | none =>
    simp only [hfault, Except.ok.injEq, Prod.mk.injEq] at h
    obtain ⟨-, rfl⟩ := h
    refine .single ?_
    unfold view
    rw [show ∀ (v : World) m, (v.emit m).engines = v.engines from fun _ _ => rfl,
      show ∀ (v : World) m, (v.emit m).threads = v.threads from fun _ _ => rfl]
    dsimp only
    rw [Array.map_push]
    exact .makes s

theorem view_startEngine (h : w.startEngine e = .ok w') : w.view.Grows R w'.view := by
  unfold startEngine at h
  cases hx : w.engines[e]? with
  | none =>
    rw [hx] at h
    cases h
    exact .refl
  | some x =>
    simp only [hx] at h
    split at h
    · cases h
    · next started records hstart =>
        rcases Engine.eq_of_start hstart with ⟨henabled, hfree, hstarted⟩ | ⟨hdisabled, hstarted⟩
        · rw [if_pos (by rw [hstarted]; exact henabled)] at h
          cases h
          have hview : (w.modifyEngine e fun _ => started).view = w.view.modifyBoard e .hire :=
            view_modifyEngine_at hx (by rw [hstarted]; rfl)
          refine .single
            ((congrArg (w.view.Opens R) ?_).mpr (.hires (e := e) (b := x.board) ?_ hfree))
          · rw [← hview]
            unfold view spawn
            dsimp only
            rw [Array.map_push]
            rfl
          · rw [view, Array.getElem?_map, hx]
            rfl
        · rw [if_neg (by rw [hstarted]; simp [hdisabled])] at h
          cases h
          have hview : (w.modifyEngine e fun _ => started).view = w.view.modifyBoard e fun b => b :=
            view_modifyEngine_at hx (by rw [hstarted]; rfl)
          rw [view_report, hview, Floor.modifyBoard, modify_eq_self fun _ _ => rfl]

theorem begins_makeEngine {s : EngineSpec} : w.Begins R t (w.performMakeEngine t label s) := by
  unfold performMakeEngine
  split
  · exact begins_nothing (by simp)
  · split
    · exact begins_nothing (by simp)
    · next e made hmake =>
        have hmade : w.view.Grows R made.view := view_makeEngine hmake
        split
        · exact begins_grown (l := []) rfl hmade (by simp)
        · next ready hready =>
            have hgrown : w.view.Grows R ready.view := by
              split at hready
              · exact hmade.trans (view_startEngine hready)
              · cases hready
                exact hmade
            dsimp only
            split
            · next o ho =>
                exact begins_grown (l := [.releaseEngine o, .finish (.other .null)]) rfl hgrown
                  (by simp)
            · exact begins_grown (l := []) rfl hgrown (by simp)

theorem begins_withEngine (h : ∀ e x, w.engines[e]? = some x → w.Begins R t (go e x)) :
    w.Begins R t (w.withEngine t label go) := by
  unfold withEngine
  (repeat' split) <;> first | exact h _ _ (by assumption) | exact begins_nothing (by simp)

theorem begins_withForeign (h : ∀ e x, w.engines[e]? = some x → w.Begins R t (go e x)) :
    w.Begins R t (w.withForeign t label absent go) := by
  unfold withForeign
  (repeat' split) <;> first | exact h _ _ (by assumption) | exact begins_nothing (by simp)

theorem exists_mem_of_get? {agents : Table AgentHandle} {a : AgentHandle}
    (h : agents.get? label = some a) : ∃ b ∈ agents, b.2.engine = a.engine := by
  obtain ⟨b, hb, rfl⟩ := Option.map_eq_some_iff.mp h
  exact ⟨b, List.mem_of_find?_eq_some hb, rfl⟩

theorem begins_withAgent {go : AgentHandle → World}
    (h : ∀ a, (∃ b ∈ w.names.agents, b.2.engine = a.engine) → w.Begins R t (go a)) :
    w.Begins R t (w.withAgent t label go) := by
  unfold withAgent
  split
  · exact begins_nothing (by simp)
  · next a ha => exact h a (exists_mem_of_get? ha)

theorem begins_foreign {call : ForeignCall} : w.Begins R t (w.performForeign t call) := by
  cases call with
  | create label settings =>
    simp only [performForeign]
    split
    · exact begins_nothing (by simp)
    · next e made hmake =>
        have hmade : w.view.Grows R made.view := view_makeEngine hmake
        split
        · exact begins_grown (l := []) rfl hmade (by simp)
        · next ready hready =>
            have hgrown := hmade.trans (view_startEngine hready)
            split
            · next old hold =>
                exact begins_grown (l := [.stopEngine old, .releaseEngine old,
                    .finish (.other (.handle true))]) rfl hgrown (by simp)
            · exact begins_grown (l := []) rfl hgrown (by simp)
  | attach label name => exact begins_withForeign fun _ _ _ => begins_attach
  | detach => exact begins_detach
  | poll =>
    simp only [performForeign]
    (repeat' split) <;> first | (refine begins_nothing ?_; simp) | exact begins_checkpoint
  | getReferent reference bind =>
    simp only [performForeign]
    split
    · exact begins_nothing (by simp)
    · split <;> next hgot => exact begins_nothing (by simp [view_of_getReferent hgot])
  | finalize label ms => exact begins_withForeign fun _ _ hx => begins_call (.drains hx)
  | suspend label id =>
    exact begins_withForeign fun _ x hx => begins_call (.suspends (.inl ⟨x, hx⟩) rfl)
  | resume label id =>
    exact begins_withForeign fun _ x hx => begins_call (.resumes (.inl ⟨x, hx⟩) rfl)
  | destroy label =>
    simp only [performForeign, withForeign]
    (repeat' split) <;>
      first | (refine begins_nothing ?_; simp; done) | exact begins_plain rfl (view_push _)
  | _ =>
    simp only [performForeign, withForeign, withForeignObject]
    (repeat' split) <;>
      first | (refine begins_nothing ?_; simp [reportFailure]) | exact begins_call (.plain rfl)

/-- **Every instruction begins with tasks of a few kinds.** -/
theorem begins_perform (i : Instruction) : w.Begins (w.Resets i) t (w.perform t i) := by
  cases i with
  | makeEngine label s => exact begins_makeEngine
  | foreign call => exact begins_foreign
  | dropRoots objects => exact begins_dropRoots
  | enterBlocking =>
    simp only [perform, withAttachment]
    (repeat' split) <;> first | (refine begins_nothing ?_; simp) | exact begins_enterBlocking
  | leaveBlocking label => exact begins_leaveBlocking
  | releaseWorld label => exact begins_releaseWorld
  | dropAgent label => exact begins_dropAgent
  | registerAgent label agent c listens gate =>
    exact begins_withEngine fun _ _ hx => begins_registerAgent hx
  | detach =>
    simp only [perform, performDetach]
    split
    · exact begins_nothing (by simp)
    · exact begins_detach
  | start label =>
    refine begins_withEngine fun e x hx => ?_
    split
    · next started hstarted =>
        exact begins_grown (l := []) rfl (view_startEngine hstarted) (by simp)
    · exact begins_nothing (by simp)
  | collect label reason =>
    refine begins_withEngine fun e x hx => ?_
    cases reason with
    | none => exact begins_call (.plain rfl)
    | some reason => exact begins_call (.collects hx)
  | runFinalization label ms => exact begins_withEngine fun _ _ hx => begins_call (.drains hx)
  | suspend label id =>
    exact begins_withEngine fun _ x hx => begins_call (.suspends (.inl ⟨x, hx⟩) rfl)
  | resume label id =>
    exact begins_withEngine fun _ x hx => begins_call (.resumes (.inl ⟨x, hx⟩) rfl)
  | agentSuspend agent id =>
    exact begins_withAgent fun _ ha => begins_controlCall (.suspends (.inr ha) rfl)
  | agentResume agent id =>
    exact begins_withAgent fun _ ha => begins_controlCall (.resumes (.inr ha) rfl)
  | agentAwait agent id ms => exact begins_withAgent fun _ _ => begins_controlCall (.plain rfl)
  | attach label name => exact begins_withEngine fun _ _ _ => begins_attach
  | safepoint =>
    simp only [perform, withAttachment]
    (repeat' split) <;> first | (refine begins_nothing ?_; simp) | exact begins_checkpoint
  | enqueue reference =>
    simp only [perform, withReference]
    (repeat' split) <;> first | (refine begins_nothing ?_; simp) | exact begins_enqueue
  | getReferent reference bind =>
    simp only [perform, withReference]
    split
    · exact begins_nothing (by simp)
    · split
      · exact begins_nothing (by simp)
      · split <;> next hgot => exact begins_nothing (by simp [view_of_getReferent hgot])
  | clearEvents label | enableJournal label | disableJournal label =>
    exact begins_withEngine fun _ _ _ =>
      begins_nothing ((view_complete _).trans (view_modifyEngine_of_board fun _ => rfl))
  | resetStatistics label =>
    simp only [perform, withEngine]
    split
    · exact begins_nothing (by simp)
    · next e he =>
        split
        · exact begins_nothing (by simp)
        · exact begins_grown (l := []) rfl (.single (.resets ⟨label, rfl, he⟩)) (by simp)
  | newReference label reference object kind queue =>
    simp only [perform, withEngine, withObject, withQueue]
    (repeat' split) <;> exact begins_nothing (by simp [begins_newReference])
  | poll queue bind | remove queue ms bind =>
    simp only [perform, withQueue]
    (repeat' split) <;>
      first | (refine begins_nothing ?_; simp; done) | exact begins_plain rfl (view_push _)
  | dropEngine label =>
    simp only [perform, performDropEngine]
    split
    · exact begins_nothing (by simp)
    · exact begins_plain rfl (view_push _)
  | build label s => exact begins_plain rfl (by simp [perform, performBuild]; rfl)
  | stopWorld label i => exact begins_withEngine fun _ _ _ => begins_stopWorld
  | garbage label n s | chain label n size bind =>
    exact begins_withEngine fun _ _ _ => begins_retained rfl
  | allocate label s bind =>
    exact begins_withEngine fun e _ _ => begins_plain (l := [.allocate e (w.makeRequest s).1,
        .conclude e (.object bind)]) rfl (by simp [call])
  | dropReference reference =>
    simp only [perform, performDropReference]
    (repeat' split) <;> exact begins_nothing (by simp)
  | cloneReference reference bind =>
    simp only [perform, withReference, performCloneReference]
    (repeat' split) <;> exact begins_nothing (by simp)
  | _ =>
    simp only [perform, withEngine, withObject, withReference, withQueue, withAgent, withAttachment]
    (repeat' split) <;> first | (refine begins_nothing ?_; simp) | exact begins_call (.plain rfl)

end Instructions

section Moves

theorem threads_floor (u : Nat) : w.floor.threads[u]? = w.stackOf u := by
  rw [floor, stackOf, Array.getElem?_map]

theorem boards_floor (e : Nat) : w.floor.boards[e]? = (w.engines[e]?).map Engine.board := by
  rw [floor, Array.getElem?_map]

theorem view_take (hs : w.stackOf t = some ⟨task :: rest, r⟩) :
    (w.take t rest).view = w.view.put t ⟨rest, r⟩ := by
  obtain ⟨x, hx, -, hr⟩ := exists_thread_of_stackOf hs
  unfold view take modifyThread Floor.put
  congr 1
  apply Array.ext_getElem?
  intro j
  simp only [Array.getElem?_map, Array.getElem?_modify]
  split
  · next hj =>
      subst hj
      rw [hx]
      simp [Thread.stack, hr]
  · rfl

/-- What a move does to stacks and to what engines show. -/
inductive Rearranges (w : World) : Move → Floor → Prop
  | rests {m : Move} (h : ∀ t, m = .step t → w.step t = none) : Rearranges w m w.floor
  | comes {name : String} :
      Rearranges w (.call name) { w.floor with threads := w.floor.threads.push ⟨[], .unit⟩ }
  | instructs {t number : Nat} {timed : Bool} {i : Instruction}
      {r : Reply} (hs : w.stackOf t = some ⟨[], r⟩) :
      Rearranges w (.instruct t number timed i) (w.floor.put t ⟨[.perform i], r⟩)
  | steps {t : Nat} {task : Task} {rest tasks : List Task} {r : Reply} {a : Option Reply}
      {c : Notch} (hstep : (w.step t).isSome = true) (hs : w.stackOf t = some ⟨task :: rest, r⟩)
      (h : task.Produces w.engines t r tasks a c) :
      Rearranges w (.step t) ((w.floor.put t ⟨tasks ++ rest, a.getD r⟩).alter c)
  | performs {t : Nat} {i : Instruction} {rest tasks : List Task} {r : Reply}
      {a : Option Reply} {f : Floor} (hstep : (w.step t).isSome = true)
      (hs : w.stackOf t = some ⟨.perform i :: rest, r⟩) (h : Opening w.engines w.names.agents tasks)
      (hf : (w.floor.put t ⟨rest, r⟩).Grows (w.Resets i) f) :
      Rearranges w (.step t) (f.put t ⟨tasks ++ rest, a.getD r⟩)

theorem floor_of_view {f : Floor} (h : w.view = f) : w.floor = f.mute := congrArg Floor.mute h

theorem rearranges_step (h : w.step t = some w') : w.Rearranges (.step t) w'.floor := by
  have hsome : (w.step t).isSome = true := by rw [h]; rfl
  obtain ⟨x, task, rest, after, hx, htasks, hrun, rfl⟩ := exists_task_of_step h
  have hs : w.stackOf t = some ⟨task :: rest, x.reply⟩ := by
    rw [stackOf, hx, Option.map_some, Thread.stack, htasks]
  have htaken := view_take hs
  rw [floor_of_view (view_modifyThread (w := after) (f := fun x => { x with expired := false })
      fun _ => rfl)]
  by_cases hperform : ∃ i, task = .perform i
  · obtain ⟨i, rfl⟩ := hperform
    cases hrun
    obtain ⟨tasks, a, f, hopening, hgrows, hf⟩ :=
      begins_perform i
    rw [htaken] at hgrows
    have hthere :=
      hgrows.threads_of_some (Floor.getElem?_put_self ((threads_floor t).trans hs) ⟨rest, x.reply⟩)
    rw [hf, Floor.put_eq_turn hthere]
    exact .performs hsome hs hopening hgrows.mute
  · obtain ⟨r, tasks, a, c, hr, hproduces, hf⟩ :=
      rewrites_runTask (fun i hi => hperform ⟨i, hi⟩) hrun
    rw [replyOf_take hx] at hr
    subst hr
    have hmute : ((w.view.put t ⟨tasks ++ rest, a.getD x.reply⟩).alter c).mute =
        (w.floor.put t ⟨tasks ++ rest, a.getD x.reply⟩).alter c := Floor.mute_alter c
    rw [htaken, Floor.turn_put] at hf
    rw [hf]
    exact hmute ▸ .steps hsome hs hproduces

/-- **What a move does to stacks and to what engines show.** -/
theorem rearranges_move (w : World) (m : Move) : w.Rearranges m (w.move m).floor := by
  cases m with
  | step t =>
    rw [move]
    cases h : w.step t with
    | none => exact .rests fun u hu => by cases hu; exact h
    | some w' => exact rearranges_step h
  | expire t =>
    have hsame : (w.move (.expire t)).floor = w.floor :=
      floor_of_view (view_modifyThread (f := fun x => { x with expired := true }) fun _ => rfl)
    rw [hsame]
    exact .rests fun u hu => by cases hu
  | hold held | takeOutput | favour q t => exact .rests fun u hu => by cases hu
  | call name =>
    simp only [move, threadNamed]
    split
    · exact .rests fun u hu => by cases hu
    · have hspawned : (w.spawn { name := name }).2.floor =
          { w.floor with threads := w.floor.threads.push ⟨[], .unit⟩ } := by
        unfold floor spawn
        dsimp only
        rw [Array.map_push]
        rfl
      show w.Rearranges (.call name) (w.spawn { name := name }).2.floor
      rw [hspawned]
      exact .comes
  | instruct t number timed i =>
    simp only [move]
    split
    · exact .rests fun u hu => by cases hu
    · next hbusy =>
        cases hx : w.threads[t]? with
        | none =>
          have hsame : (w.modifyThread t fun x => { x with
              tasks := [.perform i], instruction := some number, timed := timed }) = w := by
            unfold modifyThread
            rw [modify_eq_self fun x hx' => by rw [hx] at hx'; cases hx']
          rw [hsame]
          exact .rests fun u hu => by cases hu
        | some x =>
          have hs : w.stackOf t = some ⟨[], x.reply⟩ := by
            rw [stackOf, hx, Option.map_some, Thread.stack, tasks_of_not_busy hx hbusy]
          have hgiven : (w.modifyThread t fun x =>
              { x with tasks := [.perform i], instruction := some number, timed := timed }).floor =
              w.floor.put t ⟨[.perform i], x.reply⟩ := by
            unfold floor modifyThread Floor.put
            congr 1
            apply Array.ext_getElem?
            intro j
            simp only [Array.getElem?_map, Array.getElem?_modify]
            split
            · next hj =>
                subst hj
                rw [hx]
                rfl
            · rfl
          rw [hgiven]
          exact .instructs hs

theorem size_engines_le_move (w : World) (m : Move) : w.engines.size ≤ (w.move m).engines.size := by
  have hsize : ∀ v : World, v.engines.size = v.floor.boards.size :=
    fun v => (Array.size_map ..).symm
  have hmove := rearranges_move w m
  rw [hsize, hsize]
  generalize (w.move m).floor = f at hmove
  cases hmove with
  | rests | comes | instructs => exact le_rfl
  | steps => rw [Floor.size_boards_alter, Floor.boards_put]
  | performs _ _ _ hf => exact hf.size_boards_le

theorem size_engines_le_after (past : List Move) (m : Move) :
    (w.after past).engines.size ≤ (w.after (past ++ [m])).engines.size := by
  rw [after_append]
  exact size_engines_le_move (w.after past) m

theorem size_engines_le_run (w : World) (moves : List Move) :
    w.engines.size ≤ (w.after moves).engines.size := by
  induction moves using List.reverseRecOn with
  | nil => exact le_rfl
  | append_singleton moves m ih => exact ih.trans (size_engines_le_after moves m)

theorem view_start (s : EngineSpec) (label : String) :
    ({} : World).view.Grows (fun _ => False) (start s label).view := by
  unfold start begin
  split
  · next w hw =>
      split at hw
      · cases hw
      · split at hw
        · cases hw
        · next e made hmake =>
            split at hw <;> cases hw
            next ready hready =>
              show ({} : World).view.Grows _ ready.view
              split at hready
              · exact (view_makeEngine hmake).trans (view_startEngine hready)
              · cases hready
                exact view_makeEngine hmake
  · exact .refl

theorem floor_start (s : EngineSpec) (label : String) :
    ({} : World).floor.Grows (fun _ => False) (start s label).floor :=
  (view_start s label).mute

/-- What a move does to one stack. -/
inductive Restacks (w : World) (m : Move) (u : Nat) : Option Stack → Option Stack → Prop
  | same {s : Option Stack} (h : m = .step u → w.step u = none) : Restacks w m u s s
  | steps {task : Task} {rest tasks : List Task} {r : Reply}
      {a : Option Reply} {c : Notch} (hm : m = .step u)
      (h : task.Produces w.engines u r tasks a c) (hstep : (w.step u).isSome = true) :
      Restacks w m u (some ⟨task :: rest, r⟩) (some ⟨tasks ++ rest, a.getD r⟩)
  | performs {i : Instruction} {rest tasks : List Task} {r : Reply} {a : Option Reply}
      (hm : m = .step u) (h : Opening w.engines w.names.agents tasks) :
      Restacks w m u (some ⟨.perform i :: rest, r⟩) (some ⟨tasks ++ rest, a.getD r⟩)
  | instructs {i : Instruction} {r : Reply} : Restacks w m u (some ⟨[], r⟩) (some ⟨[.perform i], r⟩)
  | comes : Restacks w m u none (some ⟨[], .unit⟩)
  | hires {e : Nat} : Restacks w m u none (some ⟨[.serve e], .unit⟩)

theorem Rearranges.restacks (h : w.Rearranges m f) (u : Nat) :
    w.Restacks m u (w.stackOf u) f.threads[u]? := by
  rw [← threads_floor]
  cases h with
  | rests h => exact .same (h u)
  | comes =>
    dsimp only
    rw [Array.getElem?_push]
    split
    · next hu =>
        rw [hu, Array.getElem?_eq_none le_rfl]
        exact .comes
    · exact .same nofun
  | @instructs t number timed i r hs =>
    by_cases hu : u = t
    · subst hu
      rw [Floor.getElem?_put_self ((threads_floor u).trans hs), threads_floor, hs]
      exact .instructs
    · rw [Floor.getElem?_put_of_ne hu]
      exact .same nofun
  | @steps t task rest tasks r a c hstep hs h =>
    rw [Floor.threads_alter]
    by_cases hu : u = t
    · subst hu
      rw [Floor.getElem?_put_self ((threads_floor u).trans hs), threads_floor, hs]
      exact .steps rfl h hstep
    · rw [Floor.getElem?_put_of_ne hu]
      exact .same fun h => by cases h; exact (hu rfl).elim
  | @performs t i rest tasks r a f _ hs h hf =>
    by_cases hu : u = t
    · subst hu
      have hthere :=
        hf.threads_of_some (Floor.getElem?_put_self ((threads_floor u).trans hs) ⟨rest, r⟩)
      rw [Floor.getElem?_put_self hthere, threads_floor, hs]
      exact .performs rfl h
    · rw [Floor.getElem?_put_of_ne hu]
      rcases hf.threads u with hsame | ⟨hnone, e, hnew⟩
      · rw [hsame, Floor.getElem?_put_of_ne hu]
        exact .same fun h => by cases h; exact (hu rfl).elim
      · rw [Floor.getElem?_put_of_ne hu] at hnone
        rw [hnone, hnew]
        exact .hires

/-- **A move rewrites the stack of one thread at its head,** gives a thread its first task, or makes
threads. -/
theorem restacks_move (w : World) (m : Move) (u : Nat) :
    w.Restacks m u (w.stackOf u) ((w.move m).stackOf u) := by
  rw [← threads_floor (w := w.move m)]
  exact (rearranges_move w m).restacks u

end Moves

section Agents

theorem informed_move (m : Move) (h : w.floor.Informed) : (w.move m).floor.Informed := by
  have hmove := rearranges_move w m
  generalize (w.move m).floor = f at hmove
  cases hmove with
  | rests | comes | instructs => exact h
  | steps => exact Floor.Informed.alter (f := w.floor.put _ _) h _
  | performs _ _ _ hf =>
    have hgrown := hf.informed h
    exact hgrown

/-- **There are the engines whose agents the program has names for.** -/
theorem informed_after (s : EngineSpec) (label : String) (moves : List Move) :
    ((start s label).after moves).floor.Informed := by
  induction moves using List.reverseRecOn with
  | nil => exact (floor_start s label).informed fun a ha => by cases ha
  | append_singleton moves m ih =>
    rw [after_append]
    exact informed_move m ih

theorem opening_of_informed (hw : w.floor.Informed) (h : Opening w.engines w.names.agents tasks) :
    Opening w.engines [] tasks := by
  refine h.of_agents fun a ha => ?_
  have hlt := hw a ha
  rwa [floor, Array.size_map] at hlt

end Agents

section Arrangements

/-- What holds of every task of a stack and those behind it. -/
def Arranged (P : Task → List Task → Prop) : List Task → Prop
  | [] => True
  | task :: rest => P task rest ∧ Arranged P rest

variable {P : Task → List Task → Prop}

@[simp]
theorem arranged_nil : Arranged P [] := trivial

@[simp]
theorem arranged_cons : Arranged P (task :: rest) ↔ P task rest ∧ Arranged P rest :=
  Iff.rfl

theorem all_imp (h : ∀ {task}, kind task = true → kind' task = true)
    (htasks : tasks.all kind = true) : tasks.all kind' = true :=
  List.all_eq_true.mpr fun x hx => h (List.all_eq_true.mp htasks x hx)

theorem Arranged.append_of_free (hfree : ∀ task rest, free task = true → P task rest)
    (htasks : tasks.all free = true) (h : Arranged P rest) : Arranged P (tasks ++ rest) := by
  induction tasks with
  | nil => exact h
  | cons task tasks ih =>
    rw [List.all_cons, Bool.and_eq_true] at htasks
    exact ⟨hfree _ _ htasks.1, ih htasks.2⟩

theorem Arranged.imp (h : ∀ task rest, P task rest → Q task rest) (hP : Arranged P tasks) :
    Arranged Q tasks := by
  induction tasks with
  | nil => trivial
  | cons task rest ih => exact ⟨h _ _ hP.1, ih hP.2⟩

/-- Whether productions keep what is asked of every task and those behind it, in a run from a world;
what is asked may come to be asked of less. -/
structure IsKept (w : World) (P : List Move → Task → List Task → Prop) : Prop where
  mono : ∀ {past : List Move} {m : Move} {task : Task} {rest : List Task}, P past task rest →
    P (past ++ [m]) task rest
  serve : ∀ past e, P past (.serve e) []
  perform : ∀ past i, P past (.perform i) []
  opening : ∀ {past : List Move} {t : Nat} {i : Instruction} {rest tasks : List Task},
    Opening (w.after past).engines [] tasks → P past (.perform i) rest → Arranged (P past) rest →
    Arranged (P (past ++ [.step t])) (tasks ++ rest)
  produces : ∀ {past : List Move} {t : Nat} {task : Task} {rest tasks : List Task}
    {r : Reply} {a : Option Reply} {c : Notch}, (w.after past).stackOf t = some ⟨task :: rest, r⟩ →
    task.Produces (w.after past).engines t r tasks a c → P past task rest → Arranged (P past) rest →
    Arranged (P (past ++ [.step t])) (tasks ++ rest)

theorem IsKept.move (hQ : IsKept w Q) (hagents : (w.after past).floor.Informed)
    (h : ∀ x, (w.after past).stackOf t = some x → Arranged (Q past) x.tasks) :
    ∀ x, (w.after (past ++ [m])).stackOf t = some x → Arranged (Q (past ++ [m])) x.tasks := by
  intro x hx
  rw [after_append] at hx
  have hmove := restacks_move (w.after past) m t
  generalize hs : (w.after past).stackOf t = s at h hmove
  generalize hs' : ((w.after past).move m).stackOf t = s' at hmove
  obtain rfl : s' = some x := hs'.symm.trans hx
  cases hmove with
  | same => exact (h x rfl).imp fun _ _ => hQ.mono
  | steps hm hproduces =>
    subst hm
    exact hQ.produces hs hproduces (h _ rfl).1 (h _ rfl).2
  | performs hm hopening =>
    subst hm
    exact hQ.opening (opening_of_informed hagents hopening) (h _ rfl).1 (h _ rfl).2
  | instructs => exact ⟨hQ.perform _ _, trivial⟩
  | comes => trivial
  | hires => exact ⟨hQ.serve _ _, trivial⟩

theorem stackOf_start (s : EngineSpec) (label : String) (u : Nat) :
    (start s label).stackOf u = none ∨
    ∃ e, (start s label).stackOf u = some ⟨[.serve e], .unit⟩ := by
  have hnobody : ({} : World).floor.threads[u]? = none := by simp [floor]
  rcases (floor_start s label).threads u with hsame | ⟨-, e, hnew⟩
  · exact .inl (by rw [← threads_floor, hsame, hnobody])
  · exact .inr ⟨e, by rw [← threads_floor, hnew]⟩

/-- **What productions keep holds of every stack along every run.** -/
theorem arranged_after (hQ : IsKept (start s label) Q) (moves : List Move) :
    ∀ x, ((start s label).after moves).stackOf t = some x → Arranged (Q moves) x.tasks := by
  induction moves using List.reverseRecOn with
  | nil =>
    intro x hx
    rcases stackOf_start s label t with hnone | ⟨e, hserve⟩
    · rw [after, List.foldl_nil, hnone] at hx
      cases hx
    · rw [after, List.foldl_nil, hserve] at hx
      cases hx
      exact ⟨hQ.serve _ e, trivial⟩
  | append_singleton moves m ih => exact hQ.move (informed_after s label moves) ih

end Arrangements

end World

end ManagedHeap
