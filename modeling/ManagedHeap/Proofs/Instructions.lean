import ManagedHeap.Proofs.Bodies

/-!
# Instructions

**Input.**  An instruction that its thread begins with, or a task that ends one.

**Algorithm.**  Names own roots and handles, so what an instruction finds under a name is owned
while it looks.

**Results.**  Every instruction is a section without deeds: objects are stored, references claimed
and finalizers run by the tasks that instructions leave behind (`World.performs_perform`).
-/

namespace ManagedHeap

namespace World

variable {w w' w₁ : World} {t e : Nat} {p : Multiset Asset} {label : String} {r : Root}
  {bind : Option String} {h : Handle} {a : Answer} (hn : w.Needs t .nothing)

section Values

variable {f : Finish} {m : Need}

theorem performs_complete (h : Acts L (w.openCore t) p [] (w₁.openCore t) 0)
    (hn : w₁.Needs t .nothing) : Performs L t w p [] (w₁.complete t a) :=
  .done (hn.of_openCore (openCore_complete _)) (by rw [openCore_complete]; exact h)

theorem performs_answer (he : w₁.openCore t = w.openCore t) (hn : w.Needs t .nothing) :
    Performs L t w 0 [] (w₁.complete t a) := .quiet (by rw [openCore_complete, he]) hn

theorem threads_bindForeign (name : Option String) (r : Root) :
    (w.bindForeign name r).threads = w.threads := by
  unfold bindForeign
  split
  · rfl
  · dsimp only
    split <;> rfl

theorem threads_bindReference (name : String) (h : Handle) :
    (w.bindReference name h).threads = w.threads := by
  unfold bindReference
  dsimp only
  split <;> rfl

theorem threads_bindForeignReference (name : String) (h : Handle) :
    (w.bindForeignReference name h).threads = w.threads := by
  unfold bindForeignReference
  dsimp only
  split <;> rfl

variable (hd : w.names.bindings.Distinct) (hr : f.role.before .nothing = some m)

include hn hd hr

theorem acts_bindValue :
    Acts L (w.openCore t) ↑(m.value (w.replyOf t)) [] ((w.bindValue t f).2.openCore t) 0 ∧
      (w.bindValue t f).2.Needs t .nothing := by
  have hsame : ∀ {v : List Asset} {w₁ : World}, v = [] → w₁.openCore t = w.openCore t →
      Acts L (w.openCore t) ↑v [] (w₁.openCore t) 0 ∧ w₁.Needs t .nothing :=
    fun hv he => ⟨by rw [he, hv]; exact .nil, hn.of_openCore he⟩
  unfold bindValue
  cases f with
  | object bind =>
    cases hr
    dsimp only
    cases w.replyOf t with
    | object r =>
      cases r with
      | none => exact hsame rfl rfl
      | some r => exact ⟨acts_bindObject? (p := 0) hd bind r, hn.of_world (threads_bindObject? _ _)⟩
    | _ => exact hsame rfl rfl
  | foreignObject size bind =>
    cases hr
    dsimp only
    cases w.replyOf t with
    | object r =>
      cases r with
      | none => exact hsame rfl rfl
      | some r => exact ⟨acts_bindForeign (p := 0) hd bind r, hn.of_world (threads_bindForeign _ _)⟩
    | _ => exact hsame rfl rfl
  | entry bind =>
    cases hr
    dsimp only
    cases w.replyOf t with
    | entry h =>
      cases h with
      | none => exact hsame rfl rfl
      | some h =>
        cases bind with
        | none => exact ⟨acts_release (p := 0) h, hn.of_world rfl⟩
        | some name =>
          exact ⟨acts_bindReference (p := 0) hd name h, hn.of_world (threads_bindReference _ _)⟩
    | _ => exact hsame rfl rfl
  | worldStopped e =>
    cases hr
    dsimp only
    cases w.replyOf t with
    | count n => exact hsame (by simp) (openCore_modifyThread fun _ => rfl)
    | _ => exact hsame (by simp) rfl
  | foreignFlag action | foreignCount action | foreignAttach =>
    cases hr
    dsimp only
    cases w.replyOf t <;> exact hsame (by simp) rfl
  | plain | other a =>
    cases hr
    exact hsame (by simp) rfl

theorem performs_finish : Performs L t w ↑(m.value (w.replyOf t)) [] (w.finish t f) := by
  obtain ⟨hacts, hn₁⟩ := acts_bindValue hn hd hr
  exact performs_complete hacts hn₁

theorem performs_conclude : Performs L t w ↑(m.value (w.replyOf t)) [] (w.conclude t e f) := by
  obtain ⟨hacts, hn₁⟩ := acts_bindValue hn hd hr
  exact .push hacts hn₁ rfl (by simp [Task.Fits])

end Values

section Lookup

include hn

theorem performs_withEngine (hgo : ∀ e x, w.engines[e]? = some x → Performs L t w 0 [] (go e x)) :
    Performs L t w 0 [] (w.withEngine t label go) := by
  unfold withEngine
  split
  · exact performs_answer rfl hn
  · split
    · exact performs_answer rfl hn
    · next x hx => exact hgo _ x hx

theorem performs_withForeign (hgo : ∀ e x, w.engines[e]? = some x → Performs L t w 0 [] (go e x)) :
    Performs L t w 0 [] (w.withForeign t label absent go) := by
  unfold withForeign
  split
  · exact performs_answer rfl hn
  · split
    · exact performs_answer rfl hn
    · next x hx => exact hgo _ x hx

theorem performs_withObject
    (hgo : ∀ r, w.names.objects.get? label = some r → Performs L t w 0 [] (go r)) :
    Performs L t w 0 [] (w.withObject t label go) := by
  unfold withObject
  split
  · exact performs_answer rfl hn
  · next r hr => exact hgo r hr

theorem performs_withForeignObject
    (hgo : ∀ r, w.names.foreignObjects.get? label = some r → Performs L t w 0 [] (go r)) :
    Performs L t w 0 [] (w.withForeignObject t label absent go) := by
  unfold withForeignObject
  split
  · exact performs_answer rfl hn
  · next r hr => exact hgo r hr

theorem performs_withReference
    (hgo : ∀ h r, w.names.references.get? label = some h → Performs L t w 0 [] (go h r)) :
    Performs L t w 0 [] (w.withReference t label go) := by
  unfold withReference
  split
  · exact performs_answer rfl hn
  · next h hh =>
      split
      · exact performs_answer rfl hn
      · next r _ => exact hgo h r hh

theorem performs_withAttachment
    (hgo : ∀ a, Performs L t w 0 [] (go a)) : Performs L t w 0 [] (w.withAttachment t go) := by
  unfold withAttachment
  split
  · exact performs_answer rfl hn
  · split
    · exact performs_answer rfl hn
    · exact hgo _

omit hn in
theorem acts_makeQueue (name : String) :
    Acts L (w.openCore t) p []
      (({ w with
          queues := w.queues.push {}
          names := { w.names with queues := w.names.queues.insert name w.queues.size }
              } : World).openCore t) p := by
  have hlines : (w.queues.push {}).map Queue.line = (w.queues.map Queue.line).push ⟨[], 0⟩ :=
    Array.map_push
  unfold openCore core Core.mute
  dsimp only
  rw [hlines]
  refine (Acts.single .makeLine).andThen (Acts.rename (fun hd => ?_) (fun x hx => ?_) rfl)
  · exact ⟨hd.objects, hd.foreignObjects, hd.references, hd.foreignReferences⟩
  · have hx : x ∈ w.names.queues.insert name w.queues.size := hx
    rw [Table.insert, List.mem_cons] at hx
    rcases hx with rfl | hx
    · exact .inr (by simp)
    · exact .inl (List.mem_of_mem_filter hx)

theorem performs_withQueue {label : Option String}
    {go : World → Nat → World} (hc : (w.openCore t).Regular)
    (hgo : ∀ w₁ q, w₁.Needs t .nothing → w₁.names.bindings.Distinct → w₁.names.objects =
      w.names.objects → q < (w₁.openCore t).lines.size → Performs L t w₁ 0 [] (go w₁ q)) :
    Performs L t w 0 [] (w.withQueue t label go) := by
  unfold withQueue
  split
  · exact performs_answer rfl hn
  · next name =>
      cases hq : w.names.queues.get? name with
      | some q =>
        obtain ⟨b, hb, rfl⟩ := Table.mem_of_get? hq
        exact hgo w b.2 hn hc.distinct rfl (hc.named b hb)
      | none =>
        have hmade := acts_makeQueue (L := L) (w := w) (t := t) (p := 0) name
        refine .after hmade (hgo _ _ (hn.of_world rfl) (hmade.progress.2 hc).distinct rfl ?_)
        simp [openCore, core, Core.mute]

omit hn

theorem Performs.before (he : w₁.openCore t = w.openCore t) (hn : w.Needs t .nothing)
    (hm : needs tasks .nothing = some .nothing) (hf : ∀ task ∈ tasks, task.Fits (w.openCore t))
    (ha : tasks.flatMap Task.assets = [])
    (h : (w₁.push t tasks).Needs t .nothing → Performs L t (w₁.push t tasks) 0 [] w') :
    Performs L t w 0 [] w' := by
  have hn₁ : w₁.Needs t .nothing := hn.of_openCore he
  refine .after ?_ (h (hn₁.push hm))
  rw [← he] at hf ⊢
  simpa [ha] using acts_push tasks hn₁ hm hf

end Lookup

section Engines

variable {n : Need} {ready : World}

theorem openCore_makeEngine (h : w.makeEngine s disk = .ok (e, made)) :
    made.openCore t = { w.openCore t with
          cells :=
            (w.openCore t).cells.push ⟨Heap.empty (w.openCore t).cells.size s.heapCapacity, []⟩ } ∧
      made.threads = w.threads := by
  unfold makeEngine Engine.ofSettings at h
  split at h <;> cases h
  next x emission hx =>
    split at hx <;> cases hx
    refine ⟨?_, rfl⟩
    unfold openCore core Core.mute emit
    dsimp only
    rw [Array.map_push, Array.size_map]
    rfl

theorem cell_start {x started : Runtime} {records : List LogRecord}
    (h : x.start = .ok (started, records)) : started.cell = x.cell := by
  rcases Engine.eq_of_start h with ⟨-, -, rfl⟩ | ⟨-, rfl⟩ <;> rfl

theorem Needs.lt_size (hn : w.Needs t n) : t < w.threads.size := by
  obtain ⟨x, hx, -, -⟩ := hn.thread
  exact (Array.getElem?_eq_some_iff.mp hx).1

theorem Needs.spawn (hn : w.Needs t n) (x : Thread) : (w.spawn x).2.Needs t n := by
  have ht := hn.lt_size
  unfold Needs Core.needAt
  rw [openCore_spawn (Nat.ne_of_lt ht), Array.getElem?_push, if_neg]
  · exact hn
  · simpa [openCore, core, Core.mute] using Nat.ne_of_lt ht

theorem startEngine_cases (h : w.startEngine e = .ok ready) :
    ready = w ∨ ∃ running, running.threads = w.threads ∧ running.core = w.core ∧ (ready = running ∨
      ∃ name, ready = (running.spawn { name := name, tasks := [.serve e] }).2) := by
  unfold startEngine at h
  split at h
  · cases h
    exact .inl rfl
  · next x hx =>
      split at h
      · cases h
      · next started records hs =>
          refine .inr ⟨(w.modifyEngine e fun _ => started).report records, rfl, ?_, ?_⟩
          · unfold core report modifyEngine
            dsimp only
            rw [map_modify (k := fun _ => started.cell) fun _ => rfl, modify_eq_self]
            intro c hc
            rw [Array.getElem?_map, hx] at hc
            cases hc
            exact cell_start hs
          · dsimp only at h
            split at h <;> cases h
            · exact .inr ⟨_, rfl⟩
            · exact .inl rfl

theorem acts_startEngine (ht : t ≠ w.threads.size) (h : w.startEngine e = .ok ready) :
    Acts L (w.openCore t) p [] (ready.openCore t) p := by
  rcases startEngine_cases h with rfl | ⟨running, hthreads, hcore, rfl | ⟨name, rfl⟩⟩
  · exact .nil
  · rw [openCore, openCore, hcore]
    exact .nil
  · rw [openCore_spawn (by rwa [hthreads]), openCore, openCore, hcore]
    exact Acts.spawn .unit rfl (by simp [Task.Fits]) rfl

theorem Needs.startEngine (hn : w.Needs t n) (h : w.startEngine e = .ok ready) :
    ready.Needs t n := by
  rcases startEngine_cases h with rfl | ⟨running, hthreads, -, rfl | ⟨name, rfl⟩⟩
  · exact hn
  · exact hn.of_world hthreads
  · exact (hn.of_world hthreads).spawn _

theorem acts_makeEngine (hm : w.makeEngine s disk = .ok (e, made)) :
    Acts L (w.openCore t) p [] (made.openCore t) p := by
  rw [(openCore_makeEngine hm).1]
  exact .single (.makeHeap s.heapCapacity)

include hn

theorem performs_makeEngine : Performs L t w 0 [] (w.performMakeEngine t label s) := by
  unfold performMakeEngine
  split
  · exact performs_answer rfl hn
  · split
    · exact performs_answer rfl hn
    · next e made hm =>
        have hmake := acts_makeEngine (L := L) (t := t) (p := 0) hm
        have hn₁ : made.Needs t .nothing := hn.of_world (openCore_makeEngine (t := t) hm).2
        split
        · exact performs_complete hmake hn₁
        · next ready hs =>
            have hready : Acts L (w.openCore t) 0 [] (ready.openCore t) 0 ∧
                ready.Needs t .nothing := by
              split at hs
              · exact ⟨hmake.andThen (acts_startEngine (Nat.ne_of_lt hn₁.lt_size) hs),
                  hn₁.startEngine hs⟩
              · cases hs
                exact ⟨hmake, hn₁⟩
            dsimp only
            split
            · exact .push hready.1 (hready.2.of_openCore rfl) rfl (by simp [Task.Fits])
            · exact performs_complete hready.1 (hready.2.of_openCore rfl)

end Engines

section Objects

variable {index remaining size : Nat} {name : String} {s : ObjectSpec} {previous : Option Root}

theorem acts_cloneRoots {roots : List Root}
    (h : ∀ r ∈ roots, ∃ name, w.names.objects.get? name = some r) : Acts L (w.openCore t) p
    [] ((roots.foldl cloneRoot w).openCore t) (↑(roots.map Asset.root) + p) ∧
    (roots.foldl cloneRoot w).threads = w.threads ∧ (roots.foldl cloneRoot w).names = w.names := by
  induction roots generalizing w p with
  | nil => exact ⟨by simpa using Acts.nil, rfl, rfl⟩
  | cons r rest ih =>
    rw [List.forall_mem_cons] at h
    obtain ⟨name, hr⟩ := h.1
    obtain ⟨hacts, hthreads, hnames⟩ := ih (w := w.cloneRoot r) h.2
    refine ⟨?_, hthreads, hnames⟩
    have hclone := (acts_cloneRoot (p := p) (owned_of_object hr)).andThen hacts
    simpa [← Multiset.cons_coe] using hclone

theorem acts_makeRequest (s : ObjectSpec) :
    Acts L (w.openCore t) p [] ((w.makeRequest s).2.openCore t)
    (↑((w.makeRequest s).1.finalizer.toList.map Asset.closure) + p) ∧
    (w.makeRequest s).2.threads = w.threads := by
  unfold makeRequest
  split
  · exact ⟨by simpa using Acts.nil, rfl⟩
  · next f _ =>
      have hnamed : ∀ r ∈ f.holds.filterMap fun l => w.names.objects.get? l,
          ∃ name, w.names.objects.get? name = some r := by
        intro r hr
        obtain ⟨name, -, hr⟩ := List.mem_filterMap.mp hr
        exact ⟨name, hr⟩
      obtain ⟨hacts, hthreads, -⟩ := acts_cloneRoots hnamed
      exact ⟨hacts.andThen (.single (.bind (w.makeFinalizer f).1)), hthreads⟩

include hn

theorem performs_build : Performs L t w 0 [] (w.performBuild t engine s) := by
  obtain ⟨hacts, hthreads⟩ := acts_makeRequest (p := 0) _
  refine .push ?_ (hn.of_world hthreads) rfl (by simp [Task.Fits])
  simpa [Task.assets] using hacts

omit hn

theorem acts_dropNamed {s : Nat × World} (hd : s.2.names.bindings.Distinct) (label : String) :
    Acts L (s.2.openCore t) p [] ((dropNamed s label).2.openCore t) p ∧
    (dropNamed s label).2.threads = s.2.threads ∧
    (dropNamed s label).2.names.bindings.Distinct := by
  unfold dropNamed
  split
  · exact ⟨.nil, rfl, hd⟩
  · next r hr =>
      refine ⟨(acts_erase .objects _ hd hr rfl).andThen (acts_dropRoot r), rfl, ?_⟩
      exact ⟨Table.nodup_erase hd.objects label, hd.foreignObjects, hd.references,
        hd.foreignReferences⟩

theorem acts_dropAllNamed {s : Nat × World}
    (hd : s.2.names.bindings.Distinct) (labels : List String) :
    Acts L (s.2.openCore t) p [] ((labels.foldl dropNamed s).2.openCore t) p ∧
    (labels.foldl dropNamed s).2.threads = s.2.threads := by
  induction labels generalizing s with
  | nil => exact ⟨.nil, rfl⟩
  | cons label rest ih =>
    obtain ⟨hacts, hthreads, hd'⟩ := acts_dropNamed hd label
    obtain ⟨hrest, hthreads'⟩ := ih hd'
    exact ⟨hacts.andThen hrest, hthreads'.trans hthreads⟩

include hn

theorem performs_dropRoots {labels : List String} (hd : w.names.bindings.Distinct) :
    Performs L t w 0 [] (w.performDropRoots t labels) := by
  obtain ⟨hacts, hthreads⟩ := acts_dropAllNamed (s := (0, w)) hd labels
  exact performs_complete hacts (hn.of_world hthreads)

variable (hf : e < (w.openCore t).cells.size)

include hf

theorem performs_garbage : Performs L t w 0 [] (w.garbage t e s index remaining) := by
  unfold garbage
  split
  · exact .bare rfl hn rfl
  · obtain ⟨hacts, hthreads⟩ := acts_makeRequest (p := 0) s
    refine .push ?_ (hn.of_world hthreads) rfl ?_
    · simpa [Task.assets] using hacts
    · simpa [Task.Fits] using hf.trans_le hacts.progress.1.cells

theorem performs_garbageNext :
    Performs L t w ↑(Need.object.value (w.replyOf t)) [] (w.garbageNext t e s index remaining) := by
  unfold garbageNext
  cases w.replyOf t with
  | object r =>
    cases r with
    | none => exact .bare rfl hn rfl
    | some r =>
      refine .push (acts_dropRoot (p := 0) r) (hn.of_world rfl) rfl ?_
      simpa [Task.Fits, dropRoot, Core.modifyHeap] using hf
  | _ => exact .bare rfl hn rfl

omit hf

theorem performs_chain (hd : w.names.bindings.Distinct) (hf : e < (w.openCore t).cells.size) :
    Performs L t w ↑(previous.toList.map Asset.root) []
    (w.chain t e size index remaining previous bind) := by
  unfold chain
  split
  · refine .push ?_ hn rfl (by simpa [Task.Fits] using hf)
    simpa [Task.assets] using Acts.nil
  · exact .bare rfl hn rfl
  · next r =>
      exact .push (acts_bindObject? (p := 0) hd bind r) (hn.of_world (threads_bindObject? _ _)) rfl
        (by simp [Task.Fits])

theorem performs_dropPrevious : Performs L t w ↑(previous.toList.map Asset.root) []
      ((w.dropPrevious previous).push t [.releaseEngine e, .finish (.other a)]) := by
  cases previous with
  | none => exact .bare rfl hn rfl
  | some r => exact .push (acts_dropRoot (p := 0) r) (hn.of_world rfl) rfl (by simp [Task.Fits])

include hf

/-- A new link of a chain takes the root of the one before, or both are given back. -/
theorem performs_link {q : Root} :
    Performs L t w ↑[Asset.root r, Asset.root q] []
      (match (w.engines[e]?).map fun (x : Runtime) => x.heap.checkField r 0 (some q) with
        | some (.error err) =>
          ((w.dropRoot r).dropRoot q).push t [.releaseEngine e,
            .finish (.other (.stoppedAt index err))]
        | _ =>
          ((w.modifyHeap e fun h => h.writeField r 0 (some q.object)).dropRoot q).push t
            [.chain e size (index + 1) remaining (some r) bind]) := by
  have hsize : e < w.engines.size := by simpa [openCore, core, Core.mute] using hf
  have hx := Array.getElem?_eq_getElem hsize
  rw [hx, Option.map_some]
  cases hcheck : w.engines[e].heap.checkField r 0 (some q) with
  | error err =>
    refine .push ?_ (hn.of_world rfl) rfl (by simp [Task.Fits])
    exact (acts_dropRoot r).andThen (acts_dropRoot (p := 0) q)
  | ok u =>
    have howned : ∀ v, some q = some v → (w.openCore t).Owned ↑[Asset.root r, Asset.root q] v := by
      rintro v ⟨⟩
      exact ⟨.root q, by simp, by simp [Asset.roots]⟩
    have hwrite : Acts L (w.openCore t) ↑[Asset.root r, Asset.root q] [] ((w.modifyHeap e fun h =>
          h.writeField r 0 (some q.object)).openCore t) ↑[Asset.root r, Asset.root q] := by
      rw [openCore_modifyHeap]
      have hact := Act.write (L := L) (heaps_of_engine hx) hcheck howned
      exact .single hact
    refine .push (hwrite.andThen ?_) (hn.of_world rfl) rfl ?_
    · rw [show (↑[Asset.root r, Asset.root q] : Multiset Asset) = .root q ::ₘ {.root r} from
        Multiset.pair_comm _ _]
      exact acts_dropRoot q
    · simpa [Task.Fits, dropRoot, Core.modifyHeap] using hf

theorem performs_chainNext :
    Performs L t w (↑(previous.toList.map Asset.root) + ↑(Need.object.value (w.replyOf t))) []
      (w.chainNext t e size index remaining previous bind) := by
  have hend : ∀ a, Performs L t w (↑(previous.toList.map Asset.root) + ↑([] : List Asset)) []
      ((w.dropPrevious previous).push t [.releaseEngine e, .finish (.other a)]) := by
    intro a
    rw [Multiset.coe_nil, add_zero]
    exact performs_dropPrevious hn
  unfold chainNext
  cases w.replyOf t with
  | object r =>
    cases r with
    | none => exact hend _
    | some r =>
      cases previous with
      | none => exact .push .nil hn rfl (by simpa [Task.Fits] using hf)
      | some q =>
        have hpair : (↑((some q).toList.map Asset.root) + ↑(Need.object.value (.object (some r))) :
            Multiset Asset) = ↑[Asset.root r, Asset.root q] := Multiset.pair_comm _ _
        rw [hpair]
        exact performs_link hn hf
  | _ => exact hend _

end Objects

section References

variable (hd : w.names.bindings.Distinct)

include hn hd

theorem performs_newReference (hr : (w.openCore t).Owned 0 r)
    (hq : ∀ q, queue = some q → q < (w.openCore t).lines.size) :
    Performs L t w 0 [] (w.performNewReference t e label kind r queue) := by
  unfold performNewReference
  split
  · exact performs_answer rfl hn
  · exact performs_answer rfl hn
  · exact performs_answer rfl hn
  · next kind queue x hx =>
      split
      · exact performs_answer rfl hn
      · next i heap hnew =>
          dsimp only
          refine performs_complete (Acts.andThen ?_ (acts_bindReference ?_ label ⟨e, i⟩))
            (hn.of_world (threads_bindReference _ _))
          · exact acts_newReference hx hnew hr hq
          · exact hd

theorem performs_dropReference : Performs L t w 0 [] (w.performDropReference t label) := by
  unfold performDropReference
  split
  · exact performs_answer rfl hn
  · next h hh =>
      exact performs_complete ((acts_erase .references _ hd hh rfl).andThen (acts_release h))
        (hn.of_world rfl)

theorem performs_cloneReference
    (hh : (w.openCore t).Handled 0 h) : Performs L t w 0 [] (w.performCloneReference t h bind) := by
  unfold performCloneReference
  split
  · exact performs_answer rfl hn
  · next name =>
      refine performs_complete ((acts_retain hh).andThen ?_)
        (hn.of_world (threads_bindReference _ _))
      exact acts_bindReference (w := w.modifyReference h Heap.retain) hd name h

omit hn

theorem acts_bindReferent (hg : w.getReferent h = (some r, held))
    (hL : L.accesses h) : Acts L (w.openCore t) p [] ((held.bindObject? bind r).openCore t) p := by
  have hget := acts_getReferent (w := w) (t := t) (p := p) h fun _ => hL
  have hnames := names_getReferent (w := w) h
  rw [hg] at hget hnames
  rw [← show held.names = w.names from hnames] at hd
  refine Acts.andThen ?_ (acts_bindObject? hd bind r)
  simpa using hget

end References

section Threads

include hn

theorem performs_detachAndFinish :
    Performs L t w 0 [] ((w.push t [.finish .plain]).detach t foreign) :=
  .before rfl hn rfl (by simp [Task.Fits]) rfl performs_detach

theorem performs_checkpointAndFinish :
    Performs L t w 0 [] ((w.push t [.finish (.other .null)]).checkpoint t e) :=
  .before rfl hn rfl (by simp [Task.Fits]) rfl performs_checkpoint

theorem performs_registerAgent :
    Performs L t w 0 [] (w.performRegisterAgent t e x label c listens gate) := by
  have hregistered : ∀ agents : Agents Listener,
      (w.modifyEngine e fun x => { x with agents := agents }).openCore t = w.openCore t :=
    fun _ => openCore_modifyEngine_of_cell fun _ => rfl
  unfold performRegisterAgent
  dsimp only
  refine performs_answer ?_ hn
  split
  · rw [openCore_releaseAgent]
    exact hregistered _
  · exact hregistered _

end Threads

section Foreign

include hn

theorem performs_create : Performs L t w 0 [] (w.performForeign t (.create label settings)) := by
  simp only [performForeign]
  cases hm : w.makeEngine settings .unreachable with
  | error err => exact performs_answer rfl hn
  | ok result =>
    obtain ⟨e, made⟩ := result
    have hmake := acts_makeEngine (L := L) (t := t) (p := 0) hm
    have hn₁ : made.Needs t .nothing := hn.of_world (openCore_makeEngine (t := t) hm).2
    dsimp only
    cases hs : made.startEngine e with
    | error err => exact performs_complete hmake (hn₁.of_openCore rfl)
    | ok ready =>
      have hacts := acts_startEngine (L := L) (p := 0) (Nat.ne_of_lt hn₁.lt_size) hs
      have hn₂ := hn₁.startEngine hs
      dsimp only
      split
      · exact .push (hmake.andThen hacts) (hn₂.of_openCore rfl) rfl (by simp [Task.Fits])
      · exact performs_complete (hmake.andThen hacts) (hn₂.of_openCore rfl)

theorem performs_newWeak (hd : w.names.bindings.Distinct) :
    Performs L t w 0 [] (w.performForeign t (.newWeak label object reference)) := by
  refine performs_withForeign hn fun e x hx => performs_withForeignObject hn fun r hr => ?_
  split
  · exact performs_answer rfl hn
  · next i heap hnew =>
      refine performs_complete (Acts.andThen ?_ (acts_bindForeignReference ?_ reference ⟨e, i⟩))
        (hn.of_world (threads_bindForeignReference _ _))
      · exact acts_newReference hx hnew (owned_of_foreignObject hr) (by simp)
      · exact hd

theorem performs_performForeign {call : ForeignCall} (hd : w.names.bindings.Distinct) :
    Performs (w.licence (.perform (.foreign call))) t w 0 [] (w.performForeign t call) := by
  cases call with
  | create label settings => exact performs_create hn
  | allocate label size fields bind =>
    refine performs_withForeign hn fun e x hx => .pushOnly openCore_retainEngine hn rfl ?_ rfl
    simpa [Task.Fits] using lt_size_of_engine hx
  | release label =>
    refine performs_withForeignObject hn fun r hr => ?_
    exact performs_complete ((acts_erase .foreignObjects _ hd hr rfl).andThen (acts_dropRoot r))
      (hn.of_world rfl)
  | setField label object index value =>
    refine performs_withForeign hn fun e x hx => performs_withForeignObject hn fun r hr => ?_
    split
    · next heap hs =>
        refine performs_complete (acts_setField hx hs fun v hv => ?_) (hn.of_world rfl)
        obtain ⟨name, -, hv⟩ := Option.bind_eq_some_iff.mp hv
        exact owned_of_foreignObject hv
    · exact performs_answer rfl hn
  | getField label object index bind =>
    refine performs_withForeign hn fun e x hx => performs_withForeignObject hn fun r hr => ?_
    split
    · next child heap hg =>
        refine performs_complete ((acts_getField hx hg).andThen ?_)
          (hn.of_world (threads_bindForeign _ _))
        exact acts_bindForeign (w := w.modifyHeap e fun _ => heap) hd bind child
    · exact performs_answer rfl hn
    · exact performs_answer rfl hn
  | newWeak label object reference => exact performs_newWeak hn hd
  | getReferent reference bind =>
    simp only [performForeign]
    split
    · exact performs_answer rfl hn
    · next h hname =>
        have hget :=
          acts_getReferent (L := w.licence (.perform (.foreign (.getReferent reference bind))))
            (t := t) (p := 0) h fun hsome => ⟨hname, hsome⟩
        have hthreads := threads_getReferent (w := w) h
        have hnames := names_getReferent (w := w) h
        split
        · next same hg =>
            rw [hg] at hget hthreads
            exact performs_complete hget (hn.of_world hthreads)
        · next r held hg =>
            rw [hg] at hget hthreads hnames
            rw [← show held.names = w.names from hnames] at hd
            refine performs_complete (Acts.andThen ?_ (acts_bindForeign hd bind r))
              (hn.of_world ((threads_bindForeign _ _).trans hthreads))
            simpa using hget
  | releaseReference reference =>
    simp only [performForeign]
    split
    · exact performs_answer rfl hn
    · next h hh =>
        exact performs_complete
          ((acts_erase .foreignReferences _ hd hh rfl).andThen (acts_release h)) (hn.of_world rfl)
  | attach label name =>
    refine performs_withForeign hn fun e x _ => ?_
    exact .before openCore_retainEngine hn rfl (by simp [Task.Fits]) rfl performs_attach
  | detach => exact performs_detachAndFinish hn
  | poll =>
    simp only [performForeign]
    split
    · split
      · exact performs_checkpointAndFinish hn
      · exact performs_answer rfl hn
    · exact performs_answer rfl hn
  | _ =>
    simp only [performForeign, withForeign, World.call, suspendTasks, resumeTasks]
    (repeat' split) <;> simp [hn, Finish.role, reportFailure]

end Foreign

include hn

theorem performs_perform {i : Instruction} (hc : (w.openCore t).Regular) :
    Performs (w.licence (.perform i)) t w 0 [] (w.perform t i) := by
  have hd : w.names.bindings.Distinct := hc.distinct
  have hengine : ∀ {v : World} {e f},
      (∀ x, (f x).heap = x.heap ∧ (f x).finalization = x.finalization) →
        (v.modifyEngine e f).openCore t = v.openCore t := openCore_modifyEngine_of_same
  have hscope : ∀ {f}, (∀ x, (f x).tasks = x.tasks) →
      (w.modifyThread t f).openCore t = w.openCore t := openCore_modifyThread
  cases i with
  | makeEngine label s => exact performs_makeEngine hn
  | start label =>
    refine performs_withEngine hn fun e x _ => ?_
    split
    · next started hs =>
        exact performs_complete (acts_startEngine (Nat.ne_of_lt hn.lt_size) hs) (hn.startEngine hs)
    · exact performs_answer rfl hn
  | allocate label s bind =>
    refine performs_withEngine hn fun e x hx => ?_
    obtain ⟨hacts, hthreads⟩ :=
      acts_makeRequest (L := w.licence (.perform (.allocate label s bind))) (p := 0) s
    have hsize := (lt_size_of_engine hx).trans_le hacts.progress.1.cells
    refine .push ?_ ((hn.of_world hthreads).of_openCore openCore_retainEngine) rfl ?_
    · rw [openCore_retainEngine]
      simpa [Task.assets] using hacts
    · rw [openCore_retainEngine]
      simpa [Task.Fits] using hsize
  | garbage label n s | chain label n size bind =>
    refine performs_withEngine hn fun e x hx => .pushOnly openCore_retainEngine hn rfl ?_ rfl
    simpa [Task.Fits] using lt_size_of_engine hx
  | build label s => exact performs_build hn
  | cloneRoot object bind =>
    refine performs_withObject hn fun r hr => ?_
    split
    · exact performs_answer rfl hn
    · next name =>
        refine performs_complete ((acts_cloneRoot (owned_of_object hr)).andThen ?_)
          (hn.of_world (threads_bindObject? (w := w.cloneRoot r) (some name) r))
        exact acts_bindObject (w := w.cloneRoot r) hd name r
  | dropRoots objects => exact performs_dropRoots hn hd
  | getField label object index bind =>
    refine performs_withEngine hn fun e x hx => performs_withObject hn fun r hr => ?_
    split
    · exact performs_answer rfl hn
    · exact performs_answer rfl hn
    · next child heap hg =>
        refine performs_complete ((acts_getField hx hg).andThen ?_)
          (hn.of_world (threads_bindObject? _ _))
        exact acts_bindObject? (w := w.modifyHeap e fun _ => heap) hd bind child
  | setField label object index value =>
    refine performs_withEngine hn fun e x hx => performs_withObject hn fun r hr => ?_
    split
    · exact performs_answer rfl hn
    · next heap hs =>
        refine performs_complete (acts_setField hx hs fun v hv => ?_) (hn.of_world rfl)
        obtain ⟨name, -, hv⟩ := Option.bind_eq_some_iff.mp hv
        exact owned_of_object hv
  | newReference label reference object kind queue =>
    refine performs_withEngine hn fun e x hx => performs_withObject hn fun r hr => ?_
    split
    · exact performs_newReference hn hd (owned_of_object hr) (by simp)
    · refine performs_withQueue hn hc fun w₁ q hn₁ hd₁ hobjects hq => ?_
      rw [← hobjects] at hr
      exact performs_newReference hn₁ hd₁ (owned_of_object hr) (by rintro _ ⟨⟩; exact hq)
  | getReferent reference bind =>
    refine performs_withReference hn fun h _ hname => ?_
    have hthreads := threads_getReferent (w := w) h
    split
    · next same hg =>
        have hget := acts_getReferent (L := w.licence (.perform (.getReferent reference bind)))
            (w := w) (t := t) (p := 0) h fun hsome => ⟨hname, hsome⟩
        rw [hg] at hget hthreads
        exact performs_complete hget (hn.of_world hthreads)
    · next r held hg =>
        rw [hg] at hthreads
        exact performs_complete (acts_bindReferent hd hg ⟨hname, by rw [hg]; rfl⟩)
          (hn.of_world ((threads_bindObject? _ _).trans hthreads))
  | referenceInfo reference queue =>
    refine performs_withReference hn fun h r _ => ?_
    split
    · exact performs_answer rfl hn
    · exact performs_withQueue hn hc fun w₁ q hn₁ _ _ _ => performs_answer rfl hn₁
  | clearReference reference =>
    refine performs_withReference hn fun h r _ => performs_complete ?_ (hn.of_world rfl)
    rw [modifyReference, openCore_modifyHeap]
    exact .single (.adjust h Reference.clear (fun r => ⟨rfl, rfl, rfl, rfl, rfl, .inr rfl⟩)
      fun _ _ r => .inl rfl)
  | cloneReference reference bind =>
    exact performs_withReference hn fun h r hh =>
      performs_cloneReference hn hd (handled_of_reference hh)
  | enqueue reference =>
    exact performs_withReference hn fun h r hh => .before rfl hn rfl (by simp [Task.Fits]) rfl
      fun hn₁ => performs_beginEnqueue hn₁ (handled_of_reference hh)
  | dropReference reference => exact performs_dropReference hn hd
  | poll queue bind | remove queue ms bind =>
    exact performs_withQueue hn hc fun w₁ q hn₁ _ _ _ =>
      .pushOnly rfl hn₁ rfl (by simp [Task.Fits]) rfl
  | queueInfo queue =>
    refine performs_withQueue hn hc fun w₁ q hn₁ _ _ _ => ?_
    split
    · exact performs_answer rfl hn₁
    · exact performs_answer rfl hn₁
  | dropQueue queue =>
    simp only [perform]
    split
    · exact performs_answer rfl hn
    · refine performs_complete (Acts.rename (fun hd => ?_) (fun x hx => .inl ?_) rfl)
        (hn.of_world rfl)
      · exact ⟨hd.objects, hd.foreignObjects, hd.references, hd.foreignReferences⟩
      · exact List.mem_of_mem_filter hx
  | attach label name =>
    refine performs_withEngine hn fun e x _ => ?_
    exact .before openCore_retainEngine hn rfl (by simp [Task.Fits]) rfl performs_attach
  | detach =>
    simp only [perform, performDetach]
    split
    · exact performs_answer rfl hn
    · exact performs_detachAndFinish hn
  | safepoint => exact performs_withAttachment hn fun a => performs_checkpointAndFinish hn
  | foreign call => exact performs_performForeign hn hd
  | registerAgent label agent c listens gate =>
    exact performs_withEngine hn fun e x _ => performs_registerAgent hn
  | leaveBlocking label =>
    simp only [perform, performLeaveBlocking, withEngine]
    (repeat' split) <;> try simp [hn]
    exact .pushOnly openCore_leaveScope hn rfl (by simp [Task.Fits]) rfl
  | _ =>
    simp only [perform, withEngine, withObject, withAgent,
      withAttachment, World.call, suspendTasks, resumeTasks,
      performDropEngine, performEnterBlocking, performReleaseWorld, performDropAgent, controlCall]
    (repeat' split) <;> simp [hn, hengine, hscope, Finish.role]

end World

end ManagedHeap
