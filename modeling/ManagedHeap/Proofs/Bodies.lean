import ManagedHeap.Proofs.Tasks

/-!
# Finalizers, and the life of an engine

**Input.**  The tasks of the finalizer thread, and those that start, stop and drop engines.

**Results.**  Each of them is a section.  A job passes from the channel to a task, from there to the
body of its finalizer, and is opened when the body has ended or when it is dropped.
-/

namespace ManagedHeap

namespace World

variable {w w' w₁ : World} {t e : Nat} {p : Multiset Asset} {deeds : List Deed}

theorem Performs.after (h : Acts L (w.openCore t) p [] (w₁.openCore t) q)
    (h' : Performs L t w₁ q deeds w') : Performs L t w p deeds w' := by
  obtain ⟨n, hn, ha⟩ := h'
  exact ⟨n, hn, h.andThen ha⟩

section Service

variable {jobs : List (Job Finalizer)} {m : Message Finalizer} {rest : Finalization Finalizer}

theorem acts_receive {x : Runtime}
    (hx : w.engines[e]? = some x) (hr : x.finalization.receive? = some (m, rest)) : Acts L
    (w.openCore t) p [] ((w.modifyFinalization e fun _ => rest).openCore t) (↑m.assets + p) := by
  unfold Finalization.receive? at hr
  split at hr <;> cases hr
  next ms hch =>
    rw [openCore_modifyFinalization hx]
    refine Acts.setChannel (by rw [getElem?_cells, hx]; rfl) ?_
    simp only [Engine.cell, hch, List.flatMap_cons, ← Multiset.coe_add]
    abel

variable (hn : w.Needs t .nothing)

include hn

theorem performs_runJobs (hl : last.role = .plain ∧ last.Fits (w.openCore t) ∧ last.assets = []) :
    Performs L t w ↑(jobs.map Asset.job) [] (w.push t (jobs.map (Task.runJob e) ++ [last])) := by
  refine .push ?_ hn (needs_of_plain ?_) ?_
  · have hassets :
        (jobs.map (Task.runJob e) ++ [last]).flatMap Task.assets = jobs.map Asset.job := by
      rw [List.flatMap_append, List.flatMap_map]
      simp [Task.assets, hl.2.2, List.map_eq_flatMap]
    rw [hassets]
    exact .nil
  · simp only [List.mem_append, List.mem_map, List.mem_singleton]
    rintro task (⟨job, -, rfl⟩ | rfl)
    · rfl
    · exact hl.1
  · simp only [List.mem_append, List.mem_map, List.mem_singleton]
    rintro task (⟨job, -, rfl⟩ | rfl)
    · trivial
    · exact hl.2.1

omit hn in
theorem performs_received
    (hr : ((w.engines[e]?).bind fun x => x.finalization.receive?) = some (m, rest))
    (h : Performs L t (w.modifyFinalization e fun _ => rest) ↑m.assets [] w') :
    Performs L t w 0 [] w' := by
  obtain ⟨x, hx, hr⟩ := Option.bind_eq_some_iff.mp hr
  exact .after (by simpa using acts_receive (p := 0) hx hr) h

theorem performs_serve (h : w.serve t e = some w') : Performs L t w 0 [] w' := by
  unfold serve at h
  cases hr : (w.engines[e]?).bind fun x => x.finalization.receive? with
  | none => simp [hr] at h
  | some received =>
    obtain ⟨m, rest⟩ := received
    refine performs_received hr ?_
    have hn₁ : (w.modifyFinalization e fun _ => rest).Needs t .nothing := hn.of_world rfl
    simp only [hr] at h
    cases m with
    | run jobs =>
      cases h
      exact performs_runJobs hn₁ ⟨rfl, trivial, rfl⟩
    | shutdown runPending =>
      cases h
      exact .bare rfl hn₁ rfl

theorem performs_drain {runPending : Bool} : Performs L t w 0 [] (w.drain t e runPending) := by
  unfold drain
  cases hr : (w.engines[e]?).bind fun x => x.finalization.receive? with
  | none => exact .bare rfl hn rfl
  | some received =>
    obtain ⟨m, rest⟩ := received
    refine performs_received hr ?_
    have hn₁ : (w.modifyFinalization e fun _ => rest).Needs t .nothing := hn.of_world rfl
    cases m with
    | run jobs =>
      dsimp only
      split
      · exact performs_runJobs hn₁ ⟨rfl, trivial, rfl⟩
      · refine .push ?_ hn₁ rfl (by simp [Task.Fits])
        simpa [Task.assets, Message.assets, jobsOf] using Acts.nil
    | shutdown _ =>
      exact .bare rfl hn₁ rfl

theorem performs_drainUnstarted : Performs L t w 0 [] (w.drainUnstarted t e) := by
  unfold drainUnstarted
  cases hr : (w.engines[e]?).bind fun x => x.finalization.receive? with
  | none => exact .bare rfl hn rfl
  | some received =>
    obtain ⟨m, rest⟩ := received
    refine performs_received hr ?_
    have hn₁ : (w.modifyFinalization e fun _ => rest).Needs t .nothing := hn.of_world rfl
    cases m with
    | run jobs =>
      refine .push ?_ hn₁ rfl (by simp [Task.Fits])
      simpa [Task.assets, Message.assets, jobsOf] using Acts.nil
    | shutdown _ =>
      exact .bare rfl hn₁ rfl

theorem performs_closeChannel : Performs L t w 0 [] (w.closeChannel t e) := by
  unfold closeChannel
  cases hx : w.engines[e]? with
  | none => exact .quiet rfl hn
  | some x =>
    refine .push ?_ (hn.of_world rfl) rfl (by simp [Task.Fits])
    rw [openCore_modifyFinalization hx]
    refine Acts.setChannel (by rw [getElem?_cells, hx]; rfl) ?_
    have hjobs : (x.finalization.channel.flatMap jobsOf).map Asset.job =
        x.cell.channel.flatMap Message.assets := List.map_flatMap
    simp [Finalization.close, Task.assets, hjobs]

theorem performs_dropJobs :
    Performs L t w ↑(jobs.map Asset.job) (w.deedsOf t (.dropJobs jobs)) (w.dropJobs t jobs) := by
  cases jobs with
  | nil => exact .quiet rfl hn
  | cons job rest =>
    refine .push ?_ hn rfl (by simp [Task.Fits])
    simpa [Task.assets, deedsOf] using
      Acts.single (Act.discard (p := ↑(rest.map Asset.job)) job)

theorem performs_discardJobs : Performs (w.licence (.discardJobs e jobs count)) t w
    ↑(jobs.map Asset.job) [] (w.discardJobs t e jobs count) := by
  cases jobs with
  | nil => exact .bare (openCore_modifyStatistics _) hn rfl
  | cons job rest =>
    have hjob : (w.licence (.discardJobs e (job :: rest) count)).finishes job.object := rfl
    refine .push ?_ (hn.of_world rfl) rfl (by simp [Task.Fits])
    rw [openCore_modifyHeap]
    simpa [Task.assets] using
      Acts.single (Act.finish (p := ↑((job :: rest).map Asset.job)) job.object hjob)

end Service

section Objects

theorem threads_bindObject? (name : Option String) (r : Root) :
    (w.bindObject? name r).threads = w.threads := by
  unfold bindObject?
  split
  · unfold bindObject
    dsimp only
    split <;> rfl
  · rfl

theorem threads_getReferent (h : Handle) : (w.getReferent h).2.threads = w.threads := by
  unfold getReferent
  split <;> rfl

theorem names_getReferent (h : Handle) : (w.getReferent h).2.names = w.names := by
  unfold getReferent
  split <;> rfl

theorem acts_readField (hd : w.names.bindings.Distinct)
    (r : Root) (index : Nat) (bind : Option String) :
    Acts L (w.openCore t) p [] ((w.readField r index bind).2.openCore t) p := by
  unfold readField
  cases hx : w.engines[r.heap]? with
  | none => exact .nil
  | some x =>
    dsimp only
    split
    · exact .nil
    · exact .nil
    · next child heap hg =>
        exact (acts_getField hx hg).andThen (acts_bindObject? (w := w.modifyHeap r.heap fun _ =>
            heap) hd bind child)

theorem threads_readField (r : Root) (index : Nat) (bind : Option String) :
    (w.readField r index bind).2.threads = w.threads := by
  unfold readField
  split
  · rfl
  · split
    · rfl
    · rfl
    · exact threads_bindObject? _ _

theorem acts_writeField (r : Root) (index : Nat) (value : Option String) :
    Acts L (w.openCore t) p [] ((w.writeField r index value).2.openCore t) p := by
  unfold writeField
  cases hx : w.engines[r.heap]? with
  | none => exact .nil
  | some x =>
    dsimp only
    split
    · exact .nil
    · next heap hs =>
        refine acts_setField hx hs fun v hv => ?_
        obtain ⟨name, -, hv⟩ := Option.bind_eq_some_iff.mp hv
        exact owned_of_object hv

theorem threads_writeField (r : Root) (index : Nat) (value : Option String) :
    (w.writeField r index value).2.threads = w.threads := by
  unfold writeField
  split
  · rfl
  · split <;> rfl

theorem acts_peekReferent (name : String) (hL : ∀ h, w.names.references.get? name = some h →
      (w.getReferent h).1.isSome = true → L.accesses h) :
    Acts L (w.openCore t) p [] ((w.peekReferent name).2.openCore t) p := by
  unfold peekReferent
  split
  · exact .nil
  · next h hname =>
      have hget := acts_getReferent (t := t) (p := p) h (hL h hname)
      split
      · next same hg =>
          rw [hg] at hget
          simpa using hget
      · next r held hg =>
          rw [hg] at hget
          refine Acts.andThen ?_ (acts_dropRoot r)
          simpa using hget

theorem threads_peekReferent (name : String) : (w.peekReferent name).2.threads = w.threads := by
  unfold peekReferent
  split
  · rfl
  · next h _ =>
      have hthreads := threads_getReferent (w := w) h
      split
      · next same hg => rwa [hg] at hthreads
      · next r held hg => rwa [hg] at hthreads

end Objects

section Bodies

variable {job : Job Finalizer} {results : List ActionResult} (hn : w.Needs t .nothing)
  {actions : List Action}

include hn

theorem performs_runJob (h : w.runJob t e job = some w') :
    Performs L t w ↑[Asset.job job] [] w' := by
  unfold runJob at h
  split at h <;> cases h
  exact .push .nil hn rfl (by simp [Task.Fits])

omit hn in
@[simp]
theorem openCore_noteRun (job : Job Finalizer) (results : List ActionResult) :
    (w.noteRun t job results).openCore t = w.openCore t := by
  unfold noteRun
  split <;> rfl

theorem performs_afterBody {panic : Option String} :
    Performs L t w ↑[Asset.job job] [.ran job.object job.finalizer]
      ((w.noteRun t job results).push t (afterBody e job panic)) := by
  refine .push ?_ (hn.of_openCore (openCore_noteRun _ _)) rfl (by simp [afterBody, Task.Fits])
  rw [openCore_noteRun]
  have hrun := Acts.single (L := L) (Act.run (c := w.openCore t) (p := 0) job)
  simpa [Task.assets, afterBody, ← Multiset.coe_add] using hrun

omit hn in
theorem performs_goOn {rest : List Action}
    (h : Acts L (w.openCore t) ↑[Asset.job job] [] (w₁.openCore t) ↑[Asset.job job])
    (hn : w₁.Needs t .nothing) :
    Performs L t w ↑[Asset.job job] [] (w₁.push t [.body e job rest results]) :=
  .push h hn rfl (by simp [Task.Fits])

theorem performs_runBody (hd : w.names.bindings.Distinct)
    (h : w.runBody t e job actions results = some w') :
    Performs (w.licence (.body e job actions results)) t w ↑[Asset.job job]
    (bodyDeeds job actions) w' := by
  cases actions with
  | nil =>
    cases h
    exact performs_afterBody hn
  | cons action rest =>
    cases action with
    | info =>
      cases h
      exact performs_goOn .nil hn
    | getField index bind =>
      cases h
      exact performs_goOn (acts_readField hd _ _ _) (hn.of_world (threads_readField _ _ _))
    | setField index value =>
      cases h
      exact performs_goOn (acts_writeField _ _ _) (hn.of_world (threads_writeField _ _ _))
    | resurrect bind =>
      cases h
      refine performs_goOn ?_ (hn.of_world (threads_bindObject? _ _))
      refine (acts_cloneRoot ⟨.job job, ?_, ?_⟩).andThen
        (acts_bindObject? (w := w.cloneRoot job.object) hd bind job.object)
      · simp
      · simp [Asset.roots]
    | getReferent reference =>
      cases h
      exact performs_goOn (acts_peekReferent _ fun h hname hget =>
        ⟨hname, hget⟩) (hn.of_world (threads_peekReferent _))
    | enqueue reference =>
      simp only [runBody] at h
      cases hr : w.names.references.get? reference with
      | none =>
        simp only [hr, Option.some.injEq] at h
        subst h
        exact performs_goOn .nil hn
      | some k =>
        simp only [hr, Option.some.injEq] at h
        subst h
        refine .after ?_ (performs_beginEnqueue (hn.push rfl) (handled_of_reference hr))
        exact acts_push [.bodyResumes e job rest results] (p := 0) hn rfl (by simp [Task.Fits])
    | collect =>
      cases h
      (repeat' split)
      · exact performs_goOn .nil hn
      · exact performs_goOn .nil hn
      · refine .push ?_ (hn.of_openCore openCore_retainEngine) rfl (by simp [Task.Fits])
        rw [openCore_retainEngine]
        exact .nil
    | allocate size fields bind =>
      cases h
      split
      · exact performs_goOn .nil hn
      · next x hx =>
          split
          · exact performs_goOn .nil hn
          · refine .push ?_ (hn.of_openCore openCore_retainEngine) rfl ?_
            · rw [openCore_retainEngine]
              exact .nil
            · rw [openCore_retainEngine]
              simpa [Task.Fits] using lt_size_of_engine hx
    | gate gate =>
      simp only [runBody, passGate] at h
      split at h <;> cases h
      exact performs_goOn .nil hn
    | panic message =>
      cases h
      exact performs_afterBody hn

theorem performs_bodyResumes :
    Performs L t w ↑[Asset.job job] [] (w.bodyResumes t e job actions results) := by
  unfold bodyResumes
  split <;> exact performs_goOn .nil hn

theorem performs_keepObject (hd : w.names.bindings.Distinct) (bind : Option String) :
    Performs L t w ↑(Need.object.value (w.replyOf t)) [] (w.keepObject t bind) := by
  unfold keepObject
  cases w.replyOf t with
  | object r =>
    cases r with
    | none => exact .quiet rfl hn
    | some r =>
      exact .done (hn.of_world (threads_bindObject? _ _)) (acts_bindObject? (p := 0) hd bind r)
  | _ => exact .quiet rfl hn

end Bodies

section Ends

theorem performs_finishObject (hn : w.Needs t .nothing) (hr : L.finishes r) :
    Performs L t w 0 [] (w.modifyHeap r.heap (·.finishFinalization r.object)) := by
  refine .done (hn.of_world rfl) ?_
  rw [openCore_modifyHeap]
  exact .single (.finish r hr)

theorem performs_dropRoot (hn : w.Needs t .nothing) :
    Performs L t w ↑[Asset.root r] [] (w.dropRoot r) :=
  .done (hn.of_world rfl) (acts_dropRoot (p := 0) r)

theorem performs_releaseReference (hn : w.Needs t .nothing) :
    Performs L t w ↑[Asset.handle h] [] (w.modifyReference h Heap.release) :=
  .done (hn.of_world rfl) (acts_release (p := 0) h)

end Ends

section Life

theorem performs_claimReceiver (hn : w.Needs t .nothing) :
    Performs L t w 0 [] (w.claimReceiver t e) := by
  unfold claimReceiver
  cases hx : w.engines[e]? with
  | none => exact .quiet rfl hn
  | some x =>
    dsimp only
    split
    · refine .bare (openCore_modifyFinalization_of_channel ?_) hn rfl
      exact fun _ => rfl
    · split
      · exact .bare rfl hn rfl
      · split
        · next sent hs =>
            refine .push ?_ (hn.of_world rfl) rfl (by simp [Task.Fits])
            have hsend := acts_send (L := L) (t := t) (p := 0) hx
                (f := { x.finalization with joinable := false }) rfl hs
            simpa [Task.assets, Message.assets, jobsOf] using hsend
        · refine .bare ?_ hn rfl
          rw [openCore_report]
          exact openCore_setFinalization hx rfl

end Life

end World

end ManagedHeap
