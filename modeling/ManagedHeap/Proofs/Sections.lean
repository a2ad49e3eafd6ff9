import ManagedHeap.Proofs.Acts

/-!
# Sections

**Input.**  A world whose thread `t` has taken a task off its stack.

**Algorithm.**  What the task owned, and the value of the last call if the task takes it over, is in
the hand of the thread.  Each way to change a world is a sequence of acts on its core.

**Results.**  `World.Performs`: how a section begins and ends; the acts of binding, fetching,
cloning and dropping.
-/

namespace ManagedHeap

variable {r : Root} {name : String} {i index : Nat}

namespace Table

variable {α β : Type} {table : Table α} (h : (table.map Prod.fst).Nodup)

include h

theorem nodup_erase (name : String) : ((table.erase name).map Prod.fst).Nodup :=
  h.sublist (List.filter_sublist.map _)

theorem nodup_insert (name : String) (a : α) : ((table.insert name a).map Prod.fst).Nodup := by
  rw [insert, List.map_cons, List.nodup_cons]
  refine ⟨?_, nodup_erase h name⟩
  simp [erase]

omit h in
theorem erase_eq_self (h : name ∉ table.map Prod.fst) : table.erase name = table := by
  refine List.filter_eq_self.mpr fun x hx => ?_
  simp only [bne_iff_ne, ne_eq]
  rintro rfl
  exact h (List.mem_map_of_mem hx)

theorem map_erase (name : String) (g : α → β) :
    (↑((table.erase name).map fun x => g x.2) + ↑((table.get? name).toList.map g) : Multiset β) =
      ↑(table.map fun x => g x.2) := by
  induction table with
  | nil => simp [erase, get?]
  | cons x table ih =>
    rw [List.map_cons, List.nodup_cons] at h
    by_cases hx : x.1 = name
    · subst hx
      have hrest : (table.filter fun y => y.1 != x.1) = table := erase_eq_self h.1
      simp only [erase, get?, List.filter_cons, bne_self_eq_false, Bool.false_eq_true,
        if_false, hrest, List.find?_cons, beq_self_eq_true, Option.map_some, Option.toList_some,
        List.map_cons, List.map_nil]
      rw [add_comm]
      rfl
    · have hne : (x.1 != name) = true := by simpa using hx
      have hbeq : (x.1 == name) = false := by simpa using hx
      have ih := ih h.2
      simp only [erase, get?] at ih
      simp only [erase, get?, List.filter_cons, hne, if_true, List.find?_cons, hbeq, List.map_cons]
      rw [← Multiset.cons_coe, ← Multiset.cons_coe, ← ih, Multiset.cons_add]

theorem map_insert (name : String) (a : α) (g : α → β) :
    (↑((table.insert name a).map fun x => g x.2) + ↑((table.get? name).toList.map g) : Multiset β) =
      g a ::ₘ ↑(table.map fun x => g x.2) := by
  rw [insert, List.map_cons, ← Multiset.cons_coe, Multiset.cons_add, map_erase h]

omit h

theorem mem_of_get? {a : α} (h : table.get? name = some a) : ∃ x ∈ table, x.2 = a := by
  obtain ⟨x, hx, rfl⟩ := Option.map_eq_some_iff.mp h
  exact ⟨x, List.mem_of_find?_eq_some hx, rfl⟩

end Table

namespace Heap

variable {φ : Type} {h h' : Heap φ}

theorem getField_eq_some {child : Root} (hg : h.getField r index = .ok (some child, h')) :
    ∃ id, child = ⟨h.key, id⟩ ∧ h.space.contains id = true ∧ h' = h.pin id := by
  unfold getField at hg
  cases hr : h.record r with
  | error e => simp [hr, bind, Except.bind] at hg
  | ok record =>
    simp only [hr, bind, Except.bind] at hg
    split at hg
    · cases hg
    · cases hg
    · next child' _ =>
        split at hg <;> cases hg
        next hc => exact ⟨child', rfl, hc, rfl⟩

theorem updateReference_congr {f g : Reference → Reference}
    (hfg : ∀ r, h.references[i]? = some r → f r = g r) :
    h.updateReference i f = h.updateReference i g := by
  unfold updateReference
  rw [modify_congr hfg]

theorem updateReference_eq_self {f : Reference → Reference}
    (hf : ∀ r, h.references[i]? = some r → f r = r) : h.updateReference i f = h := by
  unfold updateReference
  rw [modify_eq_self hf]

theorem getReferent_cases (h : Heap φ) (i : Nat) :
    (h.getReferent i).1 = none ∧ (h.getReferent i).2 = h ∨
    ∃ (id : ObjectId) (g : Reference → Reference), h.space.contains id = true ∧
    (h.getReferent i).1 = some ⟨h.key, id⟩ ∧ (h.getReferent i).2 = (h.updateReference i g).pin id ∧
    (∀ r : Reference, r.Adjusts (g r)) ∧
    (∀ r : Reference, (g r).lastAccess = r.lastAccess ∨ (g r).lastAccess = h.clock) ∧
    ∀ r, h.references[i]? = some r → r.kind = .soft → (g r).lastAccess = h.clock := by
  unfold getReferent
  cases href : h.references[i]? with
  | none => exact .inl ⟨rfl, rfl⟩
  | some r =>
    dsimp only
    split
    · exact .inl ⟨rfl, rfl⟩
    · exact .inl ⟨rfl, rfl⟩
    · next id _ _ =>
        split
        · next hid =>
            by_cases hk : r.kind = .soft
            · refine .inr ⟨id, fun r => { r with lastAccess := h.clock }, hid, rfl, ?_, ?_,
                fun r => .inr rfl, fun r _ _ => rfl⟩
              · simp [hk]
              · exact fun r => ⟨rfl, rfl, rfl, rfl, rfl, .inl rfl⟩
            · refine .inr ⟨id, fun r => r, hid, rfl, ?_,
                fun r => ⟨rfl, rfl, rfl, rfl, rfl, .inl rfl⟩, fun r => .inl rfl, ?_⟩
              · simp only [hk, if_false]
                rw [updateReference_eq_self fun _ _ => rfl]
              · rintro _ ⟨⟩ hsoft
                exact (hk hsoft).elim
        · exact .inl ⟨rfl, rfl⟩

end Heap

namespace Bindings

/-- A table of names whose values own something, among the others. -/
structure Column (α : Type) where
  get : Bindings → Table α
  set : Bindings → Table α → Bindings
  asset : α → Asset
  set_get : ∀ b, set b (get b) = b
  queues_set : ∀ b table, (set b table).queues = b.queues
  distinct_get : ∀ {b}, b.Distinct → ((get b).map Prod.fst).Nodup
  distinct_set : ∀ {b table}, b.Distinct → (table.map Prod.fst).Nodup → (set b table).Distinct
  assets_set : ∀ b table, (set b table).assets = ↑(table.map fun x => asset x.2) + (set b []).assets

namespace Column

variable {α : Type} (c : Column α) {b : Bindings}

def objects : Column Root where
  get := Bindings.objects
  set b table := { b with objects := table }
  asset := .root
  set_get _ := rfl
  queues_set _ _ := rfl
  distinct_get h := h.objects
  distinct_set h ht := ⟨ht, h.foreignObjects, h.references, h.foreignReferences⟩
  assets_set _ _ := by
    simp only [assets, List.map_nil, Multiset.coe_nil]
    abel

def foreignObjects : Column Root where
  get := Bindings.foreignObjects
  set b table := { b with foreignObjects := table }
  asset := .root
  set_get _ := rfl
  queues_set _ _ := rfl
  distinct_get h := h.foreignObjects
  distinct_set h ht := ⟨h.objects, ht, h.references, h.foreignReferences⟩
  assets_set _ _ := by
    simp only [assets, List.map_nil, Multiset.coe_nil]
    abel

def references : Column Handle where
  get := Bindings.references
  set b table := { b with references := table }
  asset := .handle
  set_get _ := rfl
  queues_set _ _ := rfl
  distinct_get h := h.references
  distinct_set h ht := ⟨h.objects, h.foreignObjects, ht, h.foreignReferences⟩
  assets_set _ _ := by
    simp only [assets, List.map_nil, Multiset.coe_nil]
    abel

def foreignReferences : Column Handle where
  get := Bindings.foreignReferences
  set b table := { b with foreignReferences := table }
  asset := .handle
  set_get _ := rfl
  queues_set _ _ := rfl
  distinct_get h := h.foreignReferences
  distinct_set h ht := ⟨h.objects, h.foreignObjects, h.references, ht⟩
  assets_set _ _ := by
    simp only [assets, List.map_nil, Multiset.coe_nil]
    abel

theorem assets_eq (b : Bindings) :
    b.assets = ↑((c.get b).map fun x => c.asset x.2) + (c.set b []).assets := by
  rw [← c.assets_set, c.set_get]

theorem assets_insert (h : b.Distinct) (name : String) (a : α) :
    (c.set b ((c.get b).insert name a)).assets + ↑(((c.get b).get? name).toList.map c.asset) =
      c.asset a ::ₘ b.assets := by
  rw [c.assets_set, add_right_comm, Table.map_insert (c.distinct_get h), c.assets_eq b,
    Multiset.cons_add]

theorem assets_erase (h : b.Distinct) (name : String) : (c.set b ((c.get b).erase name)).assets +
      ↑(((c.get b).get? name).toList.map c.asset) = b.assets := by
  rw [c.assets_set, add_right_comm, Table.map_erase (c.distinct_get h), ← c.assets_eq]

theorem mem_assets {name : String} {a : α} (h : (c.get b).get? name = some a) :
    c.asset a ∈ b.assets := by
  obtain ⟨x, hx, rfl⟩ := Table.mem_of_get? h
  rw [c.assets_eq]
  exact Multiset.mem_add.mpr (.inl (Multiset.mem_coe.mpr (List.mem_map.mpr ⟨x, hx, rfl⟩)))

end Column

end Bindings

section Bare

/-- Whether a task owns nothing, has nothing to do with the value of a call and fits anywhere. -/
@[simp]
def Task.isBare : Task → Bool
  | .registry _ (.leaveBlocking ..) | .registry _ (.parked ..) => false
  | .blocking _ (.lockCollector _) | .blocking _ (.awaitDrain ..) => true
  | .blocking .. | .endRegion | .setBlocker _ | .pollQueue _ | .waitOnQueue .. | .awaitEntry .. =>
    false
  | .claimActive .. | .claimPending .. | .pushQueue .. | .releaseReference _ | .finishRemoval .. =>
    false
  | .enqueuePending .. | .schedule .. | .enrol .. | .send .. | .dropFinalizers _ | .dropHeld _
  | .dropRoot _ => false
  | .runJob .. | .body .. | .bodyResumes .. | .discardJobs .. | .dropJobs _ => false
  | .allocate .. | .attempt .. | .retry .. | .garbage .. | .garbageNext .. | .chain ..
  | .chainNext .. | .keepObject _ => false
  | .finish f | .conclude _ f => f.role = .plain
  | _ => true

variable {task : Task} {tasks : List Task}

theorem Task.role_of_isBare (h : task.isBare = true) : task.role = .plain := by
  cases task with
  | registry e op => cases op <;> first | rfl | cases h
  | blocking hold inner => cases inner <;> first | rfl | cases h
  | finish f | conclude e f => simpa [Task.role] using h
  | _ => first | rfl | cases h

theorem Task.assets_of_isBare (h : task.isBare = true) : task.assets = [] := by
  cases task with
  | blocking hold inner => cases inner <;> first | rfl | cases h
  | _ => first | rfl | cases h

theorem Task.fits_of_isBare (h : task.isBare = true) (c : Core) : task.Fits c := by
  cases task with
  | blocking hold inner => cases inner <;> trivial
  | _ => trivial

theorem needs_of_plain (h : ∀ task ∈ tasks, task.role = .plain) :
    needs tasks .nothing = some .nothing := by
  induction tasks with
  | nil => rfl
  | cons task rest ih =>
    rw [List.forall_mem_cons] at h
    rw [needs, ih h.2, h.1]
    rfl

end Bare

/-- The object that a task marks as done with its finalizer. -/
def Task.finished? : Task → Option Root
  | .finishObject r => some r
  | .discardJobs _ (job :: _) _ => some job.object
  | _ => none

namespace World

variable {L : Licence} {w w₁ : World} {t : Nat} {p : Multiset Asset} {deeds : List Deed}
  {m n : Need} {tasks : List Task}

def Needs (w : World) (t : Nat) (n : Need) : Prop := (w.openCore t).needAt t = some n

def asked? (w : World) : Task → Option Handle
  | .perform (.getReferent reference _) | .body _ _ (.getReferent reference :: _) _ =>
    w.names.references.get? reference
  | .perform (.foreign (.getReferent reference _)) => w.names.foreignReferences.get? reference
  | _ => none

theorem fst_getReferent (h : Handle) :
    (w.getReferent h).1 = (w.engines[h.heap]?).bind fun x => (x.heap.getReferent h.position).1 := by
  unfold getReferent
  cases w.engines[h.heap]? <;> rfl

/-- What a task may do: it marks its own object as done with the finalizer, and notes the use of a
reference whose object it asks for and gets. -/
def licence (w : World) (task : Task) : Licence where
  finishes r := task.finished? = some r
  accesses h := w.asked? task = some h ∧ (w.getReferent h).1.isSome = true

/-- A section: what was in the hand went to owners, and what is left is the value of the call. -/
def Performs (L : Licence) (t : Nat) (w : World) (p : Multiset Asset) (deeds : List Deed)
    (w' : World) : Prop :=
  ∃ n, w'.Needs t n ∧ Acts L (w.openCore t) p deeds (w'.openCore t) ↑(n.value (w'.replyOf t))

theorem Needs.of_openCore (h : w.Needs t n) (he : w₁.openCore t = w.openCore t) : w₁.Needs t n := by
  unfold Needs
  rw [he]
  exact h

theorem Needs.of_threads (h : w.Needs t n) (he : (w₁.openCore t).threads = (w.openCore t).threads) :
    w₁.Needs t n := by
  unfold Needs Core.needAt
  rw [he]
  exact h

theorem Needs.thread (h : w.Needs t n) : ∃ x, w.threads[t]? = some x ∧ need x.tasks = some n ∧
    (w.openCore t).threads[t]? = some ⟨x.tasks, .unit⟩ := by
  obtain ⟨s, hs, hn⟩ := Option.bind_eq_some_iff.mp h
  rw [getElem?_threads] at hs
  obtain ⟨x, hx, rfl⟩ := Option.map_eq_some_iff.mp hs
  rw [if_pos rfl] at hn
  exact ⟨x, hx, hn, by rw [getElem?_threads, hx]; simp⟩

theorem Needs.push (h : w.Needs t n) (hm : needs tasks n = some m) :
    (w.push t tasks).Needs t m := by
  obtain ⟨x, -, hn, hs⟩ := h.thread
  unfold Needs Core.needAt
  rw [openCore_push, Core.push, Array.getElem?_modify, if_pos rfl, hs]
  show need (tasks ++ x.tasks) = some m
  rw [need, needs_append]
  exact Option.bind_eq_some_iff.mpr ⟨n, hn, hm⟩

section Endings

theorem Performs.done (hn : w₁.Needs t .nothing)
    (h : Acts L (w.openCore t) p deeds (w₁.openCore t) 0) :
    Performs L t w p deeds w₁ := ⟨.nothing, hn, by simpa using h⟩

theorem Performs.value (hn : w₁.Needs t n)
    (h : Acts L (w.openCore t) p deeds (w₁.openCore t) ↑(n.value (w₁.replyOf t))) :
    Performs L t w p deeds w₁ :=
  ⟨n, hn, h⟩

theorem acts_push (tasks : List Task) (hn : w.Needs t n) (hm : needs tasks n = some m)
    (hf : ∀ task ∈ tasks, task.Fits (w.openCore t)) : Acts L (w.openCore t)
    (↑(tasks.flatMap Task.assets) + p) [] ((w.push t tasks).openCore t) p := by
  obtain ⟨x, -, hn, hs⟩ := hn.thread
  rw [openCore_push]
  exact Acts.push hs hn hm hf

theorem replyOf_push (tasks : List Task) : (w.push t tasks).replyOf t = w.replyOf t := by
  unfold replyOf push modifyThread
  rw [Array.getElem?_modify, if_pos rfl]
  cases w.threads[t]? <;> rfl

theorem replyOf_answer (hn : w.Needs t n) (r : Reply) : (w.answer t r).replyOf t = r := by
  obtain ⟨x, hx, -, -⟩ := hn.thread
  unfold replyOf answer modifyThread
  rw [Array.getElem?_modify, if_pos rfl, hx]
  rfl

/-- What is left in the hand is taken over by tasks, and by the value that they leave alone. -/
theorem Performs.pushValue {reply : Reply} (hr : w₁.replyOf t = reply)
    (h : Acts L (w.openCore t) p deeds (w₁.openCore t)
      (↑(tasks.flatMap Task.assets) + ↑(m.value reply))) (hn : w₁.Needs t n)
    (hm : needs tasks n = some m) (hf : ∀ task ∈ tasks, task.Fits (w₁.openCore t)) :
    Performs L t w p deeds (w₁.push t tasks) :=
  ⟨m, hn.push hm, by rw [replyOf_push, hr]; exact h.followedBy (acts_push tasks hn hm hf)⟩

theorem Performs.push
    (h : Acts L (w.openCore t) p deeds (w₁.openCore t) ↑(tasks.flatMap Task.assets))
    (hn : w₁.Needs t n) (hm : needs tasks n = some .nothing)
    (hf : ∀ task ∈ tasks, task.Fits (w₁.openCore t)) : Performs L t w p deeds (w₁.push t tasks) :=
  .pushValue rfl (by simpa using h) hn hm hf

variable (he : w₁.openCore t = w.openCore t)

include he

theorem Performs.pushOnly (hn : w.Needs t n) (hm : needs tasks n = some .nothing)
    (hf : ∀ task ∈ tasks, task.Fits (w.openCore t)) (ha : tasks.flatMap Task.assets = []) :
    Performs L t w 0 [] (w₁.push t tasks) :=
  .push (by rw [he, ha]; exact .nil) (hn.of_openCore he) hm (by rwa [he])

theorem Performs.pushNeutral (hr : w₁.replyOf t = w.replyOf t) (hn : w.Needs t n)
    (hm : needs tasks n = some n) (hf : ∀ task ∈ tasks, task.Fits (w.openCore t))
    (ha : tasks.flatMap Task.assets = []) :
    Performs L t w ↑(n.value (w.replyOf t)) [] (w₁.push t tasks) :=
  .pushValue hr (by rw [he, ha, Multiset.coe_nil, zero_add]; exact .nil) (hn.of_openCore he) hm
    (by rwa [he])

@[simp]
theorem Performs.bare (hn : w.Needs t .nothing)
    (htasks : tasks.all Task.isBare = true) : Performs L t w 0 [] (w₁.push t tasks) := by
  rw [List.all_eq_true] at htasks
  refine .pushOnly he hn (needs_of_plain fun task h => task.role_of_isBare (htasks task h))
    (fun task h => task.fits_of_isBare (htasks task h) _) ?_
  exact List.flatMap_eq_nil_iff.mpr fun task h => task.assets_of_isBare (htasks task h)

@[simp]
theorem Performs.quiet (hn : w.Needs t .nothing) : Performs L t w 0 [] w₁ :=
  .done (hn.of_openCore he) (by rw [he]; exact .nil)

theorem Performs.neutral (hr : w₁.replyOf t = w.replyOf t) (hn : w.Needs t n) :
    Performs L t w ↑(n.value (w.replyOf t)) [] w₁ :=
  ⟨n, hn.of_openCore he, by rw [he, hr]; exact .nil⟩

end Endings

section Names

theorem mem_assets_of_mem_bindings {a : Asset} (h : a ∈ w.names.bindings.assets) :
    a ∈ (w.openCore t).assets + p :=
  Multiset.mem_add.mpr (.inl (Multiset.mem_add.mpr (.inl (Multiset.mem_add.mpr (.inl h)))))

theorem owned_of_object (h : w.names.objects.get? name = some r) : (w.openCore t).Owned p r :=
  ⟨.root r,
    mem_assets_of_mem_bindings (Bindings.Column.objects.mem_assets h), by simp [Asset.roots]⟩

theorem owned_of_foreignObject (h : w.names.foreignObjects.get? name = some r) :
    (w.openCore t).Owned p r :=
  ⟨.root r,
    mem_assets_of_mem_bindings (Bindings.Column.foreignObjects.mem_assets h), by simp [Asset.roots]⟩

theorem handled_of_reference {h : Handle} (hh : w.names.references.get? name = some h) :
    (w.openCore t).Handled p h :=
  mem_assets_of_mem_bindings (Bindings.Column.references.mem_assets hh)

theorem acts_dropRoot (r : Root) :
    Acts L (w.openCore t) (.root r ::ₘ p) [] ((w.dropRoot r).openCore t) p := by
  rw [dropRoot, openCore_modifyHeap]
  exact .single (.drop r)

theorem acts_cloneRoot (h : (w.openCore t).Owned p r) :
    Acts L (w.openCore t) p [] ((w.cloneRoot r).openCore t) (.root r ::ₘ p) := by
  rw [cloneRoot, openCore_modifyHeap]
  exact .single (.clone h)

theorem acts_release (h : Handle) : Acts L (w.openCore t) (.handle h ::ₘ p) []
    ((w.modifyReference h Heap.release).openCore t) p := by
  rw [modifyReference, openCore_modifyHeap]
  exact .single (.release h)

theorem acts_retain {h : Handle} (hh : (w.openCore t).Handled p h) : Acts L (w.openCore t) p []
    ((w.modifyReference h Heap.retain).openCore t) (.handle h ::ₘ p) := by
  rw [modifyReference, openCore_modifyHeap]
  exact .single (.retain hh)

theorem acts_dropRoot? (r : Option Root) :
    Acts L (w.openCore t) (↑(r.toList.map Asset.root) + p) [] ((match r with
        | some o => w.dropRoot o | none => w).openCore t) p := by
  cases r with
  | none => simpa using Acts.nil
  | some r => exact acts_dropRoot r

theorem acts_release? (h : Option Handle) :
    Acts L (w.openCore t) (↑(h.toList.map Asset.handle) + p) [] ((match h with
        | some o => w.modifyReference o Heap.release | none => w).openCore t) p := by
  cases h with
  | none => simpa using Acts.nil
  | some h => exact acts_release h

theorem acts_rename (names : Names) {old new : Multiset Asset} (hd : names.bindings.Distinct)
    (hq : names.queues = w.names.queues)
    (ho : names.bindings.assets + old = new + w.names.bindings.assets) : Acts L (w.openCore t)
    (new + p) [] (({ w with names := names } : World).openCore t) (old + p) := by
  refine Acts.rename (b := names.bindings) (fun _ => hd) (fun x hx => .inl ?_) ?_
  · have hx : x ∈ names.queues := hx
    rw [hq] at hx
    exact hx
  · rw [← add_assoc, ho, add_comm new, add_assoc]
    rfl

section Columns

variable {α : Type} (c : Bindings.Column α) (names : Names)

/-- A name is bound to something, and what it was bound to before passes to the hand. -/
theorem acts_bind (hd : w.names.bindings.Distinct) (name : String) (a : α)
    (hb : names.bindings = c.set w.names.bindings ((c.get w.names.bindings).insert name a)) :
    Acts L (w.openCore t) (c.asset a ::ₘ p) [] (({ w with names := names } : World).openCore t)
      (↑(((c.get w.names.bindings).get? name).toList.map c.asset) + p) := by
  rw [← Multiset.singleton_add]
  refine acts_rename names ?_ ((congrArg Bindings.queues hb).trans (c.queues_set ..)) ?_
  · rw [hb]
    exact c.distinct_set hd (Table.nodup_insert (c.distinct_get hd) name a)
  · rw [hb, c.assets_insert hd, Multiset.singleton_add]

theorem acts_erase {name : String} {a : α} (hd : w.names.bindings.Distinct)
    (ha : (c.get w.names.bindings).get? name = some a)
    (hb : names.bindings = c.set w.names.bindings ((c.get w.names.bindings).erase name)) : Acts L
    (w.openCore t) p [] (({ w with names := names } : World).openCore t) (c.asset a ::ₘ p) := by
  have hassets := c.assets_erase hd name
  rw [ha, ← hb, ← zero_add w.names.bindings.assets] at hassets
  have hdistinct : names.bindings.Distinct :=
    hb ▸ c.distinct_set hd (Table.nodup_erase (c.distinct_get hd) name)
  simpa using acts_rename (p := p) names hdistinct
    ((congrArg Bindings.queues hb).trans (c.queues_set ..)) hassets

end Columns

variable (hd : w.names.bindings.Distinct)

include hd

theorem acts_bindObject (name : String) (r : Root) :
    Acts L (w.openCore t) (.root r ::ₘ p) [] ((w.bindObject name r).openCore t) p :=
  Acts.andThen (acts_bind .objects _ hd name r rfl) (acts_dropRoot? (w.names.objects.get? name))

theorem acts_bindObject? (name : Option String) (r : Root) :
    Acts L (w.openCore t) (.root r ::ₘ p) [] ((w.bindObject? name r).openCore t) p := by
  cases name with
  | none => exact acts_dropRoot r
  | some name => exact acts_bindObject hd name r

theorem acts_bindForeign (name : Option String) (r : Root) :
    Acts L (w.openCore t) (.root r ::ₘ p) [] ((w.bindForeign name r).openCore t) p := by
  cases name with
  | none => exact acts_dropRoot r
  | some name =>
    exact Acts.andThen (acts_bind .foreignObjects _ hd name r rfl)
      (acts_dropRoot? (w.names.foreignObjects.get? name))

theorem acts_bindReference (name : String) (h : Handle) :
    Acts L (w.openCore t) (.handle h ::ₘ p) [] ((w.bindReference name h).openCore t) p :=
  Acts.andThen (acts_bind .references _ hd name h rfl)
    (acts_release? (w.names.references.get? name))

theorem acts_bindForeignReference (name : String) (h : Handle) :
    Acts L (w.openCore t) (.handle h ::ₘ p) [] ((w.bindForeignReference name h).openCore t) p :=
  Acts.andThen (acts_bind .foreignReferences _ hd name h rfl)
    (acts_release? (w.names.foreignReferences.get? name))

end Names

section Heaps

variable {e : Nat} {x : Runtime} {heap : Heap Finalizer}

theorem getElem?_heaps (j : Nat) :
    (w.openCore t).heaps[j]? = (w.engines[j]?).map fun x => x.heap := by
  unfold Core.heaps
  rw [Array.getElem?_map, getElem?_cells, Option.map_map]
  rfl

variable (hx : w.engines[e]? = some x)

include hx

theorem heaps_of_engine : (w.openCore t).heaps[e]? = some x.heap := by
  rw [getElem?_heaps, hx]
  rfl

omit hx in
theorem reference?_openCore (h : Handle) : (w.openCore t).reference? h = w.reference? h := by
  unfold Core.reference? reference?
  rw [getElem?_heaps]
  cases w.engines[h.heap]? <;> rfl

theorem acts_getField {child : Root} (hg : x.heap.getField r index = .ok (some child, heap)) :
    Acts L (w.openCore t) p [] ((w.modifyHeap e fun _ => heap).openCore t) (.root child ::ₘ p) := by
  obtain ⟨id, rfl, hid, rfl⟩ := Heap.getField_eq_some hg
  rw [openCore_setHeap (f := fun h => h.pin id) hx]
  exact .single (.fetch (heaps_of_engine hx) hid)

theorem acts_setField {value : Option Root} (hs : x.heap.setField r index value = .ok heap)
    (hv : ∀ v, value = some v → (w.openCore t).Owned p v) :
    Acts L (w.openCore t) p [] ((w.modifyHeap e fun _ => heap).openCore t) p := by
  unfold Heap.setField at hs
  cases hc : x.heap.checkField r index value with
  | error err => simp [hc, Except.map] at hs
  | ok u =>
    simp only [hc, Except.map, Except.ok.injEq] at hs
    subst hs
    rw [openCore_setHeap (f := fun h => h.writeField r index (value.map (·.object))) hx]
    exact .single (.write (heaps_of_engine hx) hc hv)

theorem acts_newReference {id : Nat} {kind : ReferenceKind} {queue : Option Nat}
    (hn : x.heap.newReference id kind r queue = .ok (i, heap)) (hr : (w.openCore t).Owned p r)
    (hq : ∀ q, queue = some q → q < (w.openCore t).lines.size) : Acts L (w.openCore t) p []
    ((w.modifyHeap e fun _ => heap).openCore t) (.handle ⟨e, i⟩ ::ₘ p) := by
  rw [openCore_modifyHeap]
  exact .single (.refer (heaps_of_engine hx) hn hr hq)

omit hx

theorem acts_getReferent (h : Handle) (hL : (w.getReferent h).1.isSome = true → L.accesses h) :
    Acts L (w.openCore t) p [] ((w.getReferent h).2.openCore t)
    (↑((w.getReferent h).1.toList.map Asset.root) + p) := by
  unfold getReferent at hL ⊢
  cases hx : w.engines[h.heap]? with
  | none => simpa using Acts.nil
  | some x =>
    simp only [hx] at hL
    dsimp only
    rcases Heap.getReferent_cases x.heap h.position with ⟨h₁, h₂⟩ |
      ⟨id, g, hid, h₁, h₂, hg, hstamp, -⟩
    · rw [h₁, h₂, openCore_setHeap (f := fun h => h) hx]
      rw [Core.modifyHeap_eq_self fun _ _ => rfl]
      simpa using Acts.nil
    · rw [h₁, h₂, openCore_setHeap (f := fun y => (y.updateReference h.position g).pin id) hx]
      rw [← Core.modifyHeap_modifyHeap (g := (·.pin id))]
      have hadjust : ∀ y, (w.openCore t).heaps[h.heap]? = some y → ∀ r : Reference,
          (g r).lastAccess = r.lastAccess ∨ L.accesses h ∧ (g r).lastAccess = y.clock := by
        intro y hy r
        rw [heaps_of_engine hx] at hy
        cases hy
        exact (hstamp r).imp_right fun hclock => ⟨hL (by rw [h₁]; rfl), hclock⟩
      refine (Acts.single (.adjust h g hg hadjust)).andThen
        (.single (.fetch (x := x.heap.updateReference h.position g) ?_ hid))
      rw [Core.heaps_modifyHeap, Array.getElem?_modify, if_pos rfl, heaps_of_engine hx]
      rfl

end Heaps

section Stages

variable {h : Handle} {old new : ReferenceStage}

theorem fst_exchangeStage : (w.exchangeStage h old new).1 = true ↔
    ∃ r, w.reference? h = some r ∧ r.stage = old := by
  unfold exchangeStage reference?
  cases w.engines[h.heap]? with
  | none => simp
  | some x =>
    dsimp only [Option.bind_some]
    unfold Heap.exchangeStage
    cases x.heap.references[h.position]? with
    | none => simp
    | some r => by_cases hs : r.stage = old <;> simp [Reference.exchange, hs]

theorem openCore_exchangeStage {f : Reference → Reference}
    (hf : ∀ r, w.reference? h = some r → (r.exchange old new).2 = f r) :
    (w.exchangeStage h old new).2.openCore t =
      (w.openCore t).modifyHeap h.heap (·.updateReference h.position f) := by
  unfold exchangeStage
  cases hx : w.engines[h.heap]? with
  | none => exact (Core.modifyHeap_eq_self fun y hy => by simp [getElem?_heaps, hx] at hy).symm
  | some x =>
    have hmoved :
        (x.heap.exchangeStage h.position old new).2 = x.heap.updateReference h.position f := by
      unfold Heap.exchangeStage
      split
      · next hnone =>
          exact (Heap.updateReference_eq_self fun r hr => by cases hnone.symm.trans hr).symm
      · exact Heap.updateReference_congr fun r hr => hf r (Option.bind_eq_some_iff.mpr ⟨x, hx, hr⟩)
    dsimp only
    rw [hmoved, openCore_setHeap (f := (·.updateReference h.position f)) hx]

theorem exchangeStage_false (he : (w.exchangeStage h old new).1 = false) :
    (w.exchangeStage h old new).2.openCore t = w.openCore t := by
  have hs : ∀ r, w.reference? h = some r → r.stage ≠ old := by
    intro r hr hs
    rw [fst_exchangeStage.mpr ⟨r, hr, hs⟩] at he
    cases he
  rw [openCore_exchangeStage (f := id) fun r hr => by simp [Reference.exchange, hs r hr]]
  exact Core.modifyHeap_eq_self fun _ _ => Heap.updateReference_eq_self fun _ _ => rfl

theorem exchangeStage_true (he : (w.exchangeStage h old new).1 = true) :
    ∃ r, w.reference? h = some r ∧ r.stage = old ∧
    (w.exchangeStage h old new).2.openCore t = (w.openCore t).modifyHeap h.heap
    (·.updateReference h.position fun r => { r with stage := new }) := by
  obtain ⟨r, hr, hs⟩ := fst_exchangeStage.mp he
  refine ⟨r, hr, hs, openCore_exchangeStage fun r' hr' => ?_⟩
  cases hr.symm.trans hr'
  simp [Reference.exchange, hs]

theorem stage_ne_of_exchange (hne : new ≠ old) {r : Reference}
    (hr : (w.exchangeStage h old new).2.reference? h = some r) : r.stage ≠ old := by
  rw [← reference?_openCore (t := 0), openCore_exchangeStage fun _ _ => rfl,
    Core.reference?_modifyHeap, if_pos rfl] at hr
  obtain ⟨x, -, hr⟩ := Option.bind_eq_some_iff.mp hr
  simp only [Heap.updateReference, Array.getElem?_modify, if_true] at hr
  obtain ⟨r₁, -, rfl⟩ := Option.map_eq_some_iff.mp hr
  unfold Reference.exchange
  split
  · exact hne
  · assumption

theorem acts_discharge (hs : ∀ r, w.reference? h = some r → r.stage ≠ .pending) :
    Acts L (w.openCore t) (.pending h ::ₘ p) []
      ((w.modifyReference h Heap.release).openCore t) p := by
  rw [modifyReference, openCore_modifyHeap]
  exact .single (.discharge fun r hr => hs r (by rwa [reference?_openCore] at hr))

theorem acts_claim {q : Nat} (hr : (w.openCore t).Routes h q)
    (hs : old = .active ∧ (w.openCore t).Cleared h ∨ old = .pending)
    (he : (w.exchangeStage h old .enqueued).1 = true) : Acts L (w.openCore t) p [.claimed h]
    ((w.exchangeStage h old .enqueued).2.openCore t) (.claim q h ::ₘ p) := by
  obtain ⟨r, hr', hold, hcore⟩ := exchangeStage_true he
  obtain ⟨r₀, hr₀, hq⟩ := hr
  rw [reference?_openCore, hr'] at hr₀
  cases hr₀
  rw [hcore]
  refine .single (.claim (by rw [reference?_openCore]; exact hr') hq ?_ fun hactive => ?_)
  · rw [hold]
    exact hs.imp And.left fun h => h
  · rcases hs with ⟨-, r₀, hr₀, hnone⟩ | hpending
    · rw [reference?_openCore, hr'] at hr₀
      cases hr₀
      exact hnone
    · rw [hold, hpending] at hactive
      cases hactive

end Stages

end World

end ManagedHeap
