import ManagedHeap.Proofs.Sections

/-!
# What tasks do to what is owned

**Input.**  A task that its thread has taken off its stack.

**Results.**  `World.deedsOf` reads off a world which deeds the next task does, and one lemma for
each kind of task says that it is a section with these deeds.
-/

namespace ManagedHeap

namespace World

section Deeds

def storeDeeds (w : World) (e : Nat) (r : Request) : List Deed :=
  match w.engines[e]? with
  | some x => r.finalizer.toList.map (.allocated x.heap.nextRoot)
  | none => []

def attemptDeeds (w : World) (e : Nat) (r : Request) : List Deed :=
  match w.engines[e]?, Footprint.footprint r.size r.fields with
  | some x, .ok size =>
    if x.heap.space.capacity < size then [] else if x.heap.space.canFit size then w.storeDeeds e r
      else []
  | _, _ => []

def retryDeeds (w : World) (t e : Nat) (r : Request) (size : Nat) : List Deed :=
  match w.replyOf t with
  | .failed _ => []
  | _ => if w.hasRoom e size then w.storeDeeds e r else []

def pauseDeeds (w : World) (t e : Nat) (reason : Reason) : List Deed :=
  match w.replyOf t, w.engines[e]? with
  | .count _, some x =>
    .paused e ::
      (((x.heap.pause x.settings reason).jobs.map fun j => .scheduled j.object j.finalizer) ++
      (x.heap.pause x.settings reason).discarded.map fun d => .discarded ⟨x.heap.key, d.1⟩ d.2)
  | _, _ => []

/-- The deed of a body that has come to its end or panics. -/
def bodyDeeds (job : Job Finalizer) : List Action → List Deed
  | [] => [.ran job.object job.finalizer]
  | .panic _ :: _ => [.ran job.object job.finalizer]
  | _ => []

/-- The deed of a reference that is claimed for its queue if it is in a stage. -/
def claimDeeds (w : World) (h : Handle) (old : ReferenceStage) : List Deed :=
  if (w.exchangeStage h old .enqueued).1 then [.claimed h] else []

/-- The deed of taking the oldest entry off a queue. -/
def popDeeds (w : World) (q : Nat) : List Deed :=
  match (w.queues[q]?).bind (·.entries.head?) with
  | some h => [.popped q h]
  | none => []

/-- What the next task of a thread is going to do to finalizers of objects and to references. -/
def deedsOf (w : World) (t : Nat) : Task → List Deed
  | .attempt e r => w.attemptDeeds e r
  | .retry e r size _ => w.retryDeeds t e r size
  | .pause e _ reason => w.pauseDeeds t e reason
  | .dropJobs (job :: _) => [.dropped job.object job.finalizer]
  | .body _ job actions _ => bodyDeeds job actions
  | .enqueuePending e (i :: _) _ _ =>
    if ((w.reference? ⟨e, i⟩).bind (·.queue)).isSome then w.claimDeeds ⟨e, i⟩ .pending else []
  | .claimActive h _ => w.claimDeeds h .active
  | .claimPending h _ => w.claimDeeds h .pending
  | .pushQueue q h => [.pushed q h]
  | .pollQueue q | .awaitEntry q _ => w.popDeeds q
  | _ => []

end Deeds

variable {w w' : World} {t e : Nat} {h : Handle} {q : Nat} {n : Need} {x : Runtime}
  {p : Multiset Asset} {w₁ : World}

section Safepoints

variable {op : Operation} {foreign : Bool}

theorem registry_step_neutral {r r' : Registry} {expired : Bool} {p : Progress}
    (hn : (Task.registry e op).role = .neutral) (h : r.step t expired op = some (r', p)) :
    p = .finished ∨ ∃ op', p = .continues op' ∧ (Task.registry e op').role = .neutral := by
  cases op with
  | leaveBlocking id hold =>
    simp only [Registry.step] at h
    split at h <;> cases h
    · exact .inr ⟨_, rfl, rfl⟩
    · exact .inl rfl
  | parked id hold =>
    simp only [Registry.step] at h
    (repeat' split at h) <;> cases h
    · exact .inr ⟨_, rfl, rfl⟩
    · exact .inl rfl
  | _ => simp [Task.role] at hn

theorem role_registry (op : Operation) : (Task.registry e op).role = .plain ∨
    (Task.registry e op).role = .neutral := by
  cases op with
  | leaveBlocking id hold => exact .inr rfl
  | parked id hold => exact .inr rfl
  | _ => exact .inl rfl

theorem performs_runOperation {m : Need} (hn : w.Needs t n)
    (hr : (Task.registry e op).role.before n = some m) (h : w.runOperation t e op = some w') :
    Performs L t w ↑(m.value (w.replyOf t)) [] w' := by
  unfold runOperation at h
  cases hx : w.engines[e]? with
  | none =>
    simp only [hx, Option.some.injEq] at h
    subst h
    rcases role_registry op with hrole | hrole
    · rw [hrole] at hr
      obtain ⟨rfl, rfl⟩ := Role.before_plain hr
      exact .neutral rfl rfl hn
    · rw [hrole] at hr
      cases hr
      exact .neutral rfl rfl hn
  | some x =>
    simp only [hx] at h
    cases hs : x.registry.step t (w.isExpired t) op with
    | none => simp [hs] at h
    | some result =>
      obtain ⟨registry, progress⟩ := result
      simp only [hs] at h
      have hquiet : (w.modifyRegistry e fun _ => registry).openCore t = w.openCore t :=
        openCore_modifyRegistry _
      rcases role_registry op with hrole | hrole
      · rw [hrole] at hr
        obtain ⟨rfl, rfl⟩ := Role.before_plain hr
        rw [Need.value_nothing]
        cases progress with
        | finished =>
          cases h
          exact .quiet hquiet hn
        | answered r =>
          cases h
          exact .quiet (by rw [openCore_answer, hquiet]) hn
        | continues op' =>
          cases h
          refine .pushOnly hquiet hn ?_ (by simp [Task.Fits]) rfl
          rcases role_registry (e := e) op' with hrole' | hrole' <;>
            simp [needs, hrole', Role.before]
      · rw [hrole] at hr
        cases hr
        rcases registry_step_neutral hrole hs with rfl | ⟨op', rfl, hrole'⟩
        · cases h
          exact .neutral hquiet rfl hn
        · cases h
          refine .pushNeutral hquiet rfl hn ?_ (by simp [Task.Fits]) rfl
          simp [needs, hrole', Role.before]

theorem performs_checkpoint (hn : w.Needs t .nothing) : Performs L t w 0 [] (w.checkpoint t e) := by
  unfold checkpoint
  split
  · split
    · exact .bare rfl hn rfl
    · exact .quiet rfl hn
  · exact .quiet rfl hn

theorem performs_runBlocking {hold : Hold} {inner : Task} (hn : w.Needs t n)
    (hf : (Task.blocking hold inner).Fits (w.openCore t))
    (hr : inner.role.before n = some .nothing) :
    Performs L t w 0 [] (w.runBlocking t hold inner) := by
  have hown : inner.assets = [] ∧ inner.Fits (w.openCore t) := by
    cases inner <;> first
      | exact False.elim hf
      | exact ⟨rfl, trivial⟩
  unfold runBlocking
  split
  · next a _ =>
      refine .pushOnly (openCore_setRegion true) hn ?_ ?_ ?_
      · show (inner.role.before n).bind Role.plain.before = some .nothing
        rw [hr]
        rfl
      · simp only [List.forall_mem_cons]
        exact ⟨trivial, hown.2, trivial, trivial, by simp⟩
      · simp [Task.assets, hown.1]
  · refine .pushOnly rfl hn ?_ (by simp [hown.2]) (by simp [hown.1])
    simp [needs, hr]

theorem performs_attach {name : String} (hn : w.Needs t .nothing) :
    Performs L t w 0 [] (w.attach t e name foreign) := by
  unfold attach
  split
  · exact .quiet (openCore_answer _) hn
  · exact .bare rfl hn rfl

theorem performs_detach (hn : w.Needs t .nothing) : Performs L t w 0 [] (w.detach t foreign) := by
  unfold detach
  split
  · split
    · exact .bare (openCore_answer _) hn rfl
    · exact .quiet (openCore_answer _) hn
  · exact .quiet (openCore_answer _) hn

end Safepoints

section Cycle

variable {cycle : Nat} {reason : Reason}

theorem lt_size_of_engine (hx : w.engines[e]? = some x) : e < (w.openCore t).cells.size := by
  have := (Array.getElem?_eq_some_iff.mp hx).1
  simpa [openCore, core, Core.mute] using this

theorem openCore_modifyHeap_pause (hx : w.engines[e]? = some x) (cycle threads : Nat)
    (reason : Reason) : ((((w.log e (.safepointReached cycle threads 0)).report
        [policyRecord cycle (x.heap.pause x.settings reason)]).modifyHeap e
          fun _ => (x.heap.pause x.settings reason).heap).setPhase e .sweeping).openCore t =
      (w.openCore t).modifyHeap e fun y => (y.pause x.settings reason).heap := by
  rw [openCore_setPhase, openCore_modifyHeap, openCore_report, openCore_log]
  refine Core.modifyHeap_congr fun y hy => ?_
  rw [heaps_of_engine hx] at hy
  cases hy
  rfl

theorem performs_pauseWorld (hn : w.Needs t .nothing) :
    Performs L t w 0 (w.pauseDeeds t e reason) (w.pauseWorld t e cycle reason) := by
  unfold pauseWorld pauseDeeds
  cases hx : w.engines[e]? with
  | none => cases w.replyOf t <;> exact .quiet (openCore_setPhase _) hn
  | some x =>
    cases w.replyOf t with
    | count threads =>
      dsimp only
      have hcore := openCore_modifyHeap_pause (t := t) hx cycle threads reason
      refine .push ?_ (hn.of_threads (by rw [hcore]; rfl)) rfl ?_
      · rw [hcore]
        have hpause :=
          Acts.single (L := L) (Act.pause (p := 0) (heaps_of_engine (t := t) hx) x.settings reason)
        simpa [Task.assets, Function.comp_def] using hpause
      · have hsize := lt_size_of_engine (t := t) hx
        rw [hcore]
        simp only [List.forall_mem_cons]
        refine ⟨trivial, trivial, trivial, ?_, by simp⟩
        simpa [Task.Fits, Core.modifyHeap] using hsize
    | _ => exact .quiet (openCore_setPhase _) hn

theorem heaps_pauseWorld {threads : Nat} (hx : w.engines[e]? = some x)
    (hr : w.replyOf t = .count threads) : (w.pauseWorld t e cycle reason).core.heaps =
      w.core.heaps.modify e fun y => (y.pause x.settings reason).heap := by
  have hcore := openCore_modifyHeap_pause (t := t) hx cycle threads reason
  unfold pauseWorld
  rw [hr, hx]
  dsimp only
  exact (congrArg Core.heaps hcore).trans Core.heaps_modifyHeap

end Cycle

section Delivery

variable {jobs : List (Job Finalizer)} {r : Report}

theorem performs_dropHeld {roots : List Root} (hn : w.Needs t n) :
    Performs L t w (↑(roots.map Asset.root) + ↑(n.value (w.replyOf t))) []
      (w.dropHeld t roots) := by
  cases roots with
  | nil =>
    rw [List.map_nil, Multiset.coe_nil, zero_add]
    exact .neutral rfl rfl hn
  | cons r rest =>
    have hreply : (w.dropRoot r).replyOf t = w.replyOf t := rfl
    refine .pushValue hreply ?_ hn rfl (by simp [Task.Fits])
    have hdrop := acts_dropRoot (L := L) (w := w) (t := t) (p := ↑(rest.map Asset.root) +
          ↑(n.value (w.replyOf t))) r
    simpa [Task.assets] using hdrop

theorem performs_dropFinalizers {fs : List Finalizer} (hn : w.Needs t n) :
    Performs L t w (↑(fs.map Asset.closure) + ↑(n.value (w.replyOf t))) []
      (w.dropFinalizers t fs) := by
  cases fs with
  | nil =>
    rw [List.map_nil, Multiset.coe_nil, zero_add]
    exact .neutral rfl rfl hn
  | cons f rest =>
    have hreply : (w.note (.discarded f.label)).replyOf t = w.replyOf t := rfl
    refine .pushValue hreply ?_ hn rfl (by simp [Task.Fits])
    have hopen := Acts.single (L := L) (Act.unbind (c := w.openCore t)
      (p := ↑(rest.map Asset.closure) + ↑(n.value (w.replyOf t))) f)
    simpa [Task.assets] using hopen

theorem routes_of_queue (hq : (w.reference? h).bind (·.queue) = some q) :
    (w.openCore t).Routes h q := by
  obtain ⟨r, hr, hq⟩ := Option.bind_eq_some_iff.mp hq
  exact ⟨r, by rw [reference?_openCore]; exact hr, hq⟩

theorem acts_settlePending (hq : (w.reference? h).bind (·.queue) = none) :
    Acts L (w.openCore t) p [] ((w.exchangeStage h .pending .inactive).2.openCore t) p := by
  cases he : (w.exchangeStage h .pending .inactive).1 with
  | false =>
    rw [exchangeStage_false he]
    exact .nil
  | true =>
    obtain ⟨r, hr, hs, hcore⟩ := exchangeStage_true he
    rw [hcore]
    refine .single (.settle (by rw [reference?_openCore]; exact hr) (.inl ⟨hs, ?_⟩))
    simpa [hr] using hq

theorem threads_exchangeStage (h : Handle) (old new : ReferenceStage) :
    (w.exchangeStage h old new).2.threads = w.threads := by
  unfold exchangeStage
  split <;> rfl

theorem Needs.of_world (h : w.Needs t n) (he : w₁.threads = w.threads) : w₁.Needs t n := by
  refine h.of_threads ?_
  unfold openCore core Core.mute
  rw [he]

theorem acts_exchange {old : ReferenceStage} {claimed : Bool} (hq : (w.openCore t).Routes h q)
    (hs : old = .active ∧ (w.openCore t).Cleared h ∨ old = .pending)
    (he : w.exchangeStage h old .enqueued = (claimed, w₁)) :
    Acts L (w.openCore t) p (w.claimDeeds h old) (w₁.openCore t)
      (↑(if claimed then [Asset.claim q h] else []) + p) := by
  unfold claimDeeds
  have h₁ : claimed = (w.exchangeStage h old .enqueued).1 := by rw [he]
  have h₂ : w₁ = (w.exchangeStage h old .enqueued).2 := by rw [he]
  subst h₁ h₂
  cases hc : (w.exchangeStage h old .enqueued).1 with
  | false =>
    rw [exchangeStage_false hc]
    simpa using Acts.nil
  | true => simpa using acts_claim hq hs hc

variable (hn : w.Needs t .nothing)

include hn

theorem performs_enqueuePending {pending : List Nat} (hf : e < (w.openCore t).cells.size) :
    Performs L t w (↑(pending.map fun i => Asset.pending ⟨e, i⟩) + ↑(jobs.map Asset.job))
      (w.deedsOf t (.enqueuePending e pending jobs r)) (w.enqueuePending t e pending jobs r) := by
  cases pending with
  | nil =>
    show Performs L t w _ [] _
    refine .push ?_ hn rfl (by simpa [Task.Fits] using hf)
    simpa [Task.assets] using Acts.nil
  | cons i rest =>
    have hdischarge : ∀ {new p}, new ≠ .pending →
        Acts L ((w.exchangeStage ⟨e, i⟩ .pending new).2.openCore t) (.pending ⟨e, i⟩ ::ₘ p) []
        (((w.exchangeStage ⟨e, i⟩ .pending new).2.modifyReference ⟨e, i⟩ Heap.release).openCore t)
        p := fun hnew => acts_discharge fun _ hr => stage_ne_of_exchange hnew hr
    simp only [enqueuePending, deedsOf]
    cases hq : (w.reference? ⟨e, i⟩).bind (·.queue) with
    | none =>
      simp only [Option.isSome_none, Bool.false_eq_true, if_false]
      have hacts := (acts_settlePending (p := .pending ⟨e, i⟩ ::ₘ (↑(rest.map fun i =>
            Asset.pending ⟨e, i⟩) + ↑(jobs.map Asset.job))) hq).andThen (hdischarge (by decide))
      refine .push ?_ (hn.of_world (threads_exchangeStage _ _ _)) rfl ?_
      · simpa [Task.assets] using hacts
      · simpa [Task.Fits] using hf.trans_le hacts.progress.1.cells
    | some q =>
      simp only [Option.isSome_some, if_true]
      have hroute := routes_of_queue (t := t) hq
      cases he : w.exchangeStage ⟨e, i⟩ .pending .enqueued with
      | mk claimed w₁ =>
        have hw₁ : w₁ = (w.exchangeStage ⟨e, i⟩ .pending .enqueued).2 := by rw [he]
        have hthreads : w₁.threads = w.threads := by rw [hw₁, threads_exchangeStage]
        have hclaim := acts_exchange (L := L) (p := .pending ⟨e, i⟩ ::ₘ
          (↑(rest.map fun i => Asset.pending ⟨e, i⟩) + ↑(jobs.map Asset.job))) hroute (.inr rfl) he
        rw [Multiset.add_cons] at hclaim
        have hacts := hclaim.followedBy (by rw [hw₁]; exact hdischarge (by decide))
        rw [← hw₁] at hacts
        have hext := hacts.progress.1
        cases claimed with
        | true =>
          refine .push ?_ (hn.of_world hthreads) rfl ?_
          · simpa [Task.assets] using hacts
          · simp only [List.forall_mem_cons]
            exact ⟨hext.routes hroute, hf.trans_le hext.cells, by simp⟩
        | false =>
          refine .push ?_ (hn.of_world hthreads) rfl ?_
          · simpa [Task.assets] using hacts
          · simpa [Task.Fits] using hf.trans_le hext.cells

theorem performs_schedule (hf : e < (w.openCore t).cells.size) :
    Performs L t w ↑(jobs.map Asset.job) [] (w.schedule t e jobs r) := by
  have hsize : e < w.engines.size := by simpa [openCore, core, Core.mute] using hf
  cases jobs with
  | nil => exact .bare rfl hn rfl
  | cons job rest =>
    unfold schedule
    rw [Array.getElem?_eq_getElem hsize]
    dsimp only
    split
    · refine .push ?_ hn rfl (by simp [Task.Fits])
      simpa [Task.assets] using Acts.nil
    · have hquiet : ∀ records k,
          ((w.report records).modifyFinalization e (·.enrol k)).openCore t = w.openCore t :=
        fun records k => openCore_modifyFinalization_of_channel fun _ => rfl
      refine .push ?_ (hn.of_openCore (hquiet _ _)) rfl (by simp [Task.Fits])
      rw [hquiet]
      simpa [Task.assets] using Acts.nil

theorem performs_enrol : Performs L t w ↑(jobs.map Asset.job) [] (w.enrol t e jobs r) := by
  have hquiet : (w.modifyFinalization e (·.enrol jobs.length)).openCore t = w.openCore t :=
    openCore_modifyFinalization_of_channel fun _ => rfl
  refine .push ?_ (hn.of_openCore hquiet) rfl (by simp [Task.Fits])
  rw [hquiet]
  simpa [Task.assets] using Acts.nil

omit hn in
theorem acts_send {m : Message Finalizer}
    {f sent : Finalization Finalizer} (hx : w.engines[e]? = some x)
    (hf : f.channel = x.finalization.channel) (hs : f.send m = some sent) : Acts L (w.openCore t)
    (↑m.assets + p) [] ((w.modifyFinalization e fun _ => sent).openCore t) p := by
  have hchannel : sent.channel = x.finalization.channel ++ [m] := by
    unfold Finalization.send at hs
    split at hs <;> cases hs
    rw [hf]
  rw [openCore_modifyFinalization hx, hchannel]
  refine Acts.setChannel (by rw [getElem?_cells, hx]; rfl) ?_
  simp only [List.flatMap_append, List.flatMap_cons, List.flatMap_nil, List.append_nil,
    ← Multiset.coe_add, Engine.cell]
  rw [add_assoc]

theorem performs_send : Performs L t w ↑(jobs.map Asset.job) [] (w.send t e jobs r) := by
  unfold send
  cases hs : (w.engines[e]?).bind fun x => x.finalization.send (.run jobs) with
  | none =>
    refine .push ?_ hn rfl (by simp [Task.Fits])
    simpa [Task.assets] using Acts.nil
  | some sent =>
    obtain ⟨x, hx, hs⟩ := Option.bind_eq_some_iff.mp hs
    refine .push ?_ (hn.of_world rfl) rfl (by simp [Task.Fits])
    rw [openCore_modifyStatistics]
    simpa [Task.assets, Message.assets, jobsOf] using acts_send (p := 0) hx rfl hs

end Delivery

section Allocation

variable {r : Request} (hn : w.Needs t .object) {size : Nat}

include hn

theorem performs_refuseAllocation {reply : Reply} (hr : Need.object.value reply = []) :
    Performs L t w ↑(r.finalizer.toList.map Asset.closure) [] (w.refuseAllocation t r reply) := by
  refine .pushValue (replyOf_answer hn reply) ?_ (hn.of_openCore (openCore_answer _)) rfl
    (by simp [Task.Fits])
  rw [openCore_answer, hr]
  simpa [Task.assets] using Acts.nil

theorem performs_allocate (hf : e < (w.openCore t).cells.size) :
    Performs L t w ↑(r.finalizer.toList.map Asset.closure) [] (w.allocate t e r) := by
  have hsize : e < w.engines.size := by simpa [openCore, core, Core.mute] using hf
  unfold allocate
  rw [Array.getElem?_eq_getElem hsize]
  dsimp only
  split
  · exact performs_refuseAllocation hn rfl
  · refine .push ?_ hn rfl ?_
    · simpa [Task.assets] using Acts.nil
    · simpa [Task.Fits] using hf

theorem performs_store (hx : w.engines[e]? = some x) (hfit : x.heap.space.canFit size = true) :
    Performs L t w ↑(r.finalizer.toList.map Asset.closure) (w.storeDeeds e r)
    (w.store t e r size) := by
  unfold store storeDeeds
  rw [hx]
  have hn' : (w.modifyHeap e fun h => h.store size r.fields r.finalizer).Needs t .object :=
    hn.of_world rfl
  refine .value (hn'.of_openCore (openCore_answer _)) ?_
  rw [replyOf_answer hn', openCore_answer, openCore_modifyHeap]
  simpa [Need.value] using
    Acts.single (Act.store (p := 0) (heaps_of_engine hx) size r.fields r.finalizer hfit)

theorem performs_attempt (hf : e < (w.openCore t).cells.size) : Performs L t w
    ↑(r.finalizer.toList.map Asset.closure) (w.attemptDeeds e r) (w.attempt t e r) := by
  have hsize : e < w.engines.size := by simpa [openCore, core, Core.mute] using hf
  have hx := Array.getElem?_eq_getElem hsize
  unfold attempt attemptDeeds
  rw [hx]
  cases Footprint.footprint r.size r.fields with
  | error f => exact performs_refuseAllocation hn rfl
  | ok size =>
    dsimp only
    split
    · exact performs_refuseAllocation hn rfl
    · split
      · next hfit => exact performs_store hn hx hfit
      · refine .push ?_ (hn.of_openCore (openCore_log _)) rfl (by simp [collectTasks, Task.Fits])
        rw [openCore_log]
        simpa [Task.assets, collectTasks] using Acts.nil

theorem performs_retry {final : Bool} : Performs L t w ↑(r.finalizer.toList.map Asset.closure)
    (w.retryDeeds t e r size) (w.retry t e r size final) := by
  have hgo : Performs L t w ↑(r.finalizer.toList.map Asset.closure)
      (if w.hasRoom e size then w.storeDeeds e r else [])
      (if w.hasRoom e size then w.store t e r size
        else if final then w.refuseAllocation t r (.failed (w.exhaustion e size))
        else w.push t (collectTasks e (.emergency size) ++ [.retry e r size true])) := by
    split
    · next hroom =>
        cases hx : w.engines[e]? with
        | none => simp [hasRoom, hx] at hroom
        | some x =>
          rw [hasRoom, hx] at hroom
          exact performs_store hn hx hroom
    · split
      · exact performs_refuseAllocation hn rfl
      · refine .push ?_ hn rfl (by simp [collectTasks, Task.Fits])
        simpa [Task.assets, collectTasks] using Acts.nil
  unfold retry retryDeeds
  cases w.replyOf t with
  | failed err => exact performs_refuseAllocation hn rfl
  | _ => exact hgo

end Allocation

section References

theorem cleared_clearReference (hq : (w.openCore t).Routes h q) :
    ((w.modifyReference h Heap.clearReference).openCore t).Cleared h := by
  obtain ⟨r, hr, -⟩ := hq
  refine ⟨r.clear, ?_, rfl⟩
  rw [modifyReference, openCore_modifyHeap]
  exact (Core.reference?_updateReference h h Reference.clear).trans
    (by rw [if_pos rfl, hr, Option.map_some])

variable (hn : w.Needs t .nothing)

include hn

theorem performs_clearReferent : Performs L t w 0 [] (w.clearReferent t h) := by
  have hclear :
      Acts L (w.openCore t) 0 [] ((w.modifyReference h Heap.clearReference).openCore t) 0 := by
    rw [modifyReference, openCore_modifyHeap]
    exact .single (.adjust h Reference.clear (fun r => ⟨rfl, rfl, rfl, rfl, rfl, .inr rfl⟩)
      fun _ _ r => .inl rfl)
  unfold clearReferent
  cases hq : (w.reference? h).bind (·.queue) with
  | none =>
    have hn₁ : (w.modifyReference h Heap.clearReference).Needs t .nothing := hn.of_world rfl
    refine .done (hn₁.of_openCore (openCore_answer _)) ?_
    rw [openCore_answer]
    exact hclear
  | some q =>
    refine .push hclear (hn.of_world rfl) rfl ?_
    have hroute := routes_of_queue (t := t) hq
    simpa [Task.Fits] using ⟨hclear.progress.1.routes hroute, cleared_clearReference hroute⟩

theorem performs_claimActive (hq : (w.openCore t).Routes h q) (hc : (w.openCore t).Cleared h) :
    Performs L t w 0 (w.claimDeeds h .active) (w.claimActive t h q) := by
  unfold claimActive
  cases he : w.exchangeStage h .active .enqueued with
  | mk claimed w₁ =>
    have hacts := acts_exchange (L := L) (p := 0) hq (.inl ⟨rfl, hc⟩) he
    have hn₁ : w₁.Needs t .nothing :=
      hn.of_world (by rw [← threads_exchangeStage (w := w) h .active .enqueued, he])
    have hroute := hacts.progress.1.routes hq
    cases claimed with
    | true =>
      refine .push ?_ (hn₁.of_openCore (openCore_answer _)) rfl ?_
      · rw [openCore_answer]
        simpa [Task.assets] using hacts
      · rw [openCore_answer]
        simpa [Task.Fits] using hroute
    | false =>
      refine .push ?_ hn₁ rfl (by simpa [Task.Fits] using hroute)
      simpa [Task.assets] using hacts

theorem performs_claimPending (hq : (w.openCore t).Routes h q) :
    Performs L t w 0 (w.claimDeeds h .pending) (w.claimPending t h q) := by
  unfold claimPending
  cases he : w.exchangeStage h .pending .enqueued with
  | mk claimed w₁ =>
    have hacts := acts_exchange (L := L) (p := 0) hq (.inr rfl) he
    have hn₁ : w₁.Needs t .nothing :=
      hn.of_world (by rw [← threads_exchangeStage (w := w) h .pending .enqueued, he])
    cases claimed with
    | true =>
      refine .push ?_ (hn₁.of_openCore (openCore_answer _)) rfl ?_
      · rw [openCore_answer]
        simpa [Task.assets] using hacts
      · rw [openCore_answer]
        simpa [Task.Fits] using hacts.progress.1.routes hq
    | false =>
      refine .done (hn₁.of_openCore (openCore_answer _)) ?_
      rw [openCore_answer]
      simpa using hacts

theorem performs_pushQueue : Performs L t w ↑[Asset.claim q h] [.pushed q h] (w.pushQueue q h) := by
  refine .done (hn.of_world rfl) ?_
  unfold pushQueue
  rw [openCore_modifyQueue (fun l => ⟨l.entries ++ [h], l.enqueued + 1⟩) (fun _ => rfl),
    modifyReference, openCore_modifyHeap]
  exact .single (.enqueue (p := 0) q h)

omit hn

theorem acts_pop {x y : Queue} {entries : List Handle} (hq : w.queues[q]? = some x)
    (he : x.entries = h :: entries) (hr : y.entries = entries) (hc : y.enqueued = x.enqueued) :
    Acts L (w.openCore t) p (w.popDeeds q) ((w.modifyQueue q fun _ => y).openCore t)
    (.handle h ::ₘ p) := by
  have hdeeds : w.popDeeds q = [.popped q h] := by simp [popDeeds, hq, he]
  rw [hdeeds, openCore_modifyQueue (fun _ => y.line) (fun _ => rfl)]
  have hline : y.line = ⟨entries, x.enqueued⟩ := by simp [Queue.line, hr, hc]
  rw [hline]
  refine .single (.dequeue ?_)
  rw [getElem?_lines, hq]
  simp [Queue.line, he]

theorem performs_noEntry {r : Reply} (hn : w.Needs t .entry) (he : w₁.openCore t = w.openCore t)
    (hr : Need.entry.value r = []) : Performs L t w 0 [] (w₁.answer t r) := by
  have hn₁ := hn.of_openCore he
  refine .value (hn₁.of_openCore (openCore_answer _)) ?_
  rw [replyOf_answer hn₁, openCore_answer, he, hr]
  exact .nil

theorem performs_pollQueue (hn : w.Needs t .entry) :
    Performs L t w 0 (w.popDeeds q) (w.pollQueue t q) := by
  unfold pollQueue
  cases hq : w.queues[q]? with
  | none =>
    have hdeeds : w.popDeeds q = [] := by simp [popDeeds, hq]
    rw [hdeeds]
    exact performs_noEntry hn rfl rfl
  | some queue =>
    rw [Option.bind_some]
    unfold Queue.pop?
    cases he : queue.entries with
    | nil =>
      have hdeeds : w.popDeeds q = [] := by simp [popDeeds, hq, he]
      rw [hdeeds]
      exact performs_noEntry hn rfl rfl
    | cons h rest =>
      refine .push ?_ (hn.of_world rfl) rfl (by simp [Task.Fits])
      simpa [Task.assets] using acts_pop (y := { queue with entries := rest })
        (p := 0) hq he rfl rfl

theorem performs_setBlocker {q : Option Nat} (hn : w.Needs t n) :
    Performs L t w ↑(n.value (w.replyOf t)) [] (w.setBlocker t q) := by
  unfold setBlocker
  split
  · exact .neutral (openCore_modifyRegistry _) rfl hn
  · exact .neutral rfl rfl hn

@[simp]
theorem openCore_clearInterrupt : (w.clearInterrupt t).openCore t = w.openCore t := by
  unfold clearInterrupt
  split
  · exact openCore_modifyRegistry _
  · rfl

theorem await_cases (queue : Queue) (thread : Nat) (interrupted expired : Bool) :
    (∃ h rest, queue.entries = h :: rest ∧
      queue.await thread interrupted expired = ({ queue with entries := rest }, .taken h)) ∨
    (queue.entries = [] ∧ (queue.await thread interrupted expired).1.line = queue.line ∧
      ∀ h, (queue.await thread interrupted expired).2 ≠ .taken h) := by
  unfold Queue.await Queue.pop?
  cases he : queue.entries with
  | cons h rest => exact .inl ⟨h, rest, rfl, rfl⟩
  | nil =>
    refine .inr ⟨rfl, ?_⟩
    dsimp only
    split
    · exact ⟨rfl, by simp⟩
    · split
      · exact ⟨rfl, by simp⟩
      · exact ⟨by simp [Queue.line, he], by simp⟩

theorem openCore_setQueue {queue rest : Queue} (hq : w.queues[q]? = some queue)
    (hl : rest.line = queue.line) : (w.modifyQueue q fun _ => rest).openCore t = w.openCore t := by
  rw [openCore_modifyQueue (fun _ => rest.line) (fun _ => rfl), Core.modifyLine, modify_eq_self]
  intro l hl'
  rw [getElem?_lines, hq] at hl'
  cases hl'
  exact hl

theorem performs_awaitEntry {ms : Option Nat} (hn : w.Needs t .entry)
    (h : w.awaitEntry t q ms = some w') : Performs L t w 0 (w.popDeeds q) w' := by
  unfold awaitEntry at h
  cases hq : w.queues[q]? with
  | none =>
    have hdeeds : w.popDeeds q = [] := by simp [popDeeds, hq]
    simp only [hq, Option.some.injEq] at h
    subst h
    rw [hdeeds]
    exact performs_noEntry hn rfl rfl
  | some queue =>
    simp only [hq] at h
    split at h
    · cases h
    · rcases await_cases (queue.wake t) t (w.isInterrupted t) (w.isExpired t ||
        decide (ms = some 0)) with
        ⟨k, rest, he, ha⟩ | ⟨he, hline, hnot⟩
      · simp only [ha, Option.some.injEq] at h
        subst h
        refine .push ?_ (hn.of_world rfl) rfl (by simp [Task.Fits])
        have hpop := acts_pop (L := L) (t := t) (y := { queue.wake t with entries := rest })
            (p := 0) hq he rfl rfl
        simpa [Task.assets] using hpop
      · have hdeeds : w.popDeeds q = [] := by
          have : queue.entries = [] := he
          simp [popDeeds, hq, this]
        rw [hdeeds]
        have hquiet := openCore_setQueue (t := t) hq hline
        cases ha : (queue.wake t).await t (w.isInterrupted t) (w.isExpired t ||
          decide (ms = some 0)) with
        | mk rest look =>
          rw [ha] at hquiet hnot
          cases look with
          | taken k => exact (hnot k rfl).elim
          | interrupted =>
            simp only [ha, Option.some.injEq] at h
            subst h
            exact performs_noEntry hn (by rw [openCore_clearInterrupt]; exact hquiet) rfl
          | timedOut =>
            simp only [ha, Option.some.injEq] at h
            subst h
            exact performs_noEntry hn hquiet rfl
          | sleeps =>
            simp only [ha, Option.some.injEq] at h
            subst h
            exact .pushOnly hquiet hn rfl (by simp [Task.Fits]) rfl

theorem performs_finishRemoval (hn : w.Needs t .entry) :
    Performs L t w ↑[Asset.handle h] [] (w.finishRemoval t q h) := by
  have hcore :
      ((w.exchangeStage h .enqueued .inactive).2.modifyQueue q Queue.countRemoval).openCore t =
      (w.exchangeStage h .enqueued .inactive).2.openCore t :=
    openCore_modifyQueue_of_line fun _ => rfl
  have hn₁ :
      ((w.exchangeStage h .enqueued .inactive).2.modifyQueue q Queue.countRemoval).Needs t .entry :=
    hn.of_world (threads_exchangeStage h .enqueued .inactive)
  refine .value (hn₁.of_openCore (openCore_answer _)) ?_
  rw [finishRemoval, replyOf_answer hn₁, openCore_answer, hcore]
  cases he : (w.exchangeStage h .enqueued .inactive).1 with
  | false =>
    rw [exchangeStage_false he]
    exact .nil
  | true =>
    obtain ⟨r, hr, hs, hcore⟩ := exchangeStage_true he
    rw [hcore]
    exact .single (.settle (by rw [reference?_openCore]; exact hr) (.inr hs))

include hn

theorem performs_beginEnqueue (hh : (w.openCore t).Handled 0 h) :
    Performs L t w 0 [] (w.beginEnqueue t h) := by
  refine .push ?_ (hn.of_world rfl) rfl (by simp [Task.Fits])
  simpa [Task.assets] using acts_retain hh

end References

end World

end ManagedHeap
