import ManagedHeap.Proofs.Postures
import ManagedHeap.Proofs.Standstill

/-!
# Releases

**Input.**  A run, and a thread that sleeps on a registry in it: parked, waiting to begin a pause,
or waiting for everybody to stand still.

**Algorithm.**  A thread falls asleep after it has seen that it has to wait.  A section after which
somebody may go on wakes everybody; one that wakes nobody leaves everybody with the reason to sleep.

**Results.**  `World.releases_after`: in no run does anybody sleep without such a reason, and nobody
but a sleeper stands still inside a call on a registry.
-/

namespace ManagedHeap

def Operation.waits : Operation → Bool
  | .parked .. | .awaitSuspension .. | .stopWorld _ | .awaitStops _ => true
  | _ => false

namespace Registry

variable {r r' : Registry} {thread u : Nat} {id : ThreadId} {op op' : Operation} {p : Progress}
  {hold : Hold}

theorem get?_masked : r.masked.get? target = (r.get? target).map Mutator.masked :=
  get?_of_map (fun _ => rfl) rfl

theorem get?_claim (hm : r.get? target = some m) :
    (r.claim i).get? target = some (if i = some target then m else m.requestStop) := by
  have hg : ∀ k : Mutator, (if i = some k.id then k else k.requestStop).id = k.id := by
    intro k
    split
    · rfl
    · exact Mutator.id_requestStop
  rw [get?_of_map hg rfl, hm, Option.map_some, (mem_of_get? hm).2]

def Detains (r : Registry) : Operation → Prop
  | .parked id hold => r.holds id hold = true
  | .stopWorld _ => r.worldStopped = true
  | .awaitStops _ => r.worldStopped = true ∧ r.allStopped = false
  | .awaitSuspension .. => True
  | _ => False

section Keeping

theorem allStopped_eq_false_iff : r.allStopped = false ↔ ∃ m ∈ r.mutators, r.delays m = true := by
  unfold allStopped
  rw [List.all_eq_false]
  simp

/-- Whoever has a reason to sleep still has it after a change of records that ends no suspension and
stops nobody. -/
theorem Detains.of_map (h : r.Detains op) (hworld : r'.worldStopped = r.worldStopped)
    (hinitiator : r'.initiator = r.initiator) (hmap : r'.mutators = r.mutators.map g)
    (hid : ∀ m, (g m).id = m.id) (hcount : ∀ m, 0 < m.suspendCount → 0 < (g m).suspendCount)
    (hstop : ∀ m : Mutator, m.isStopped = false → (g m).isStopped = false) : r'.Detains op := by
  cases op with
  | parked id hold =>
    obtain ⟨m, hm, hheld⟩ := holds_iff.mp h
    refine holds_iff.mpr ⟨g m, by rw [get?_of_map hid hmap, hm]; rfl, ?_⟩
    unfold Pauses at hheld ⊢
    rw [hworld, hinitiator]
    exact hheld.imp_left fun hany => ⟨hany.1, hcount m hany.2⟩
  | stopWorld i => exact hworld.trans h
  | awaitStops i =>
    refine ⟨hworld.trans h.1, allStopped_eq_false_iff.mpr ?_⟩
    obtain ⟨m, hm, hdelays⟩ := allStopped_eq_false_iff.mp h.2
    refine ⟨g m, hmap ▸ List.mem_map_of_mem hm, ?_⟩
    unfold delays at hdelays ⊢
    rw [Bool.and_eq_true, Bool.not_eq_true'] at hdelays ⊢
    exact ⟨by rw [hinitiator, hid]; exact hdelays.1, hstop m hdelays.2⟩
  | awaitSuspension => trivial
  | _ => cases h

theorem Detains.update (h : r.Detains op) (hid : ∀ m, (f m).id = m.id)
    (hcount : ∀ m, 0 < m.suspendCount → 0 < (f m).suspendCount)
    (hstop : ∀ m : Mutator, m.isStopped = false → (f m).isStopped = false) :
    (r.update id f).Detains op := by
  refine h.of_map rfl rfl rfl ?_ ?_ ?_
  · intro m
    split
    · exact hid m
    · rfl
  · intro m hm
    split
    · exact hcount m hm
    · exact hm
  · intro m hm
    split
    · exact hstop m hm
    · exact hm

theorem masked_update (hf : ∀ m : Mutator, (f m).masked = m.masked) :
    (r.update id f).masked = r.masked := by
  unfold masked update
  simp only [List.map_map]
  congr 1
  refine List.map_congr_left fun m _ => ?_
  simp only [Function.comp_apply]
  split
  · exact hf m
  · rfl

theorem holds_masked : r.masked.holds id hold = r.holds id hold := by
  cases hold
  · unfold holds mustPark
    rw [get?_masked]
    cases r.get? id <;> rfl
  · unfold holds heldByPause
    rw [get?_masked, Option.isSome_map]
    rfl

theorem allStopped_masked : r.masked.allStopped = r.allStopped := List.all_map

theorem Detains.of_masked (h : r.Detains op) (hmasked : r'.masked = r.masked) : r'.Detains op := by
  have hworld : r'.worldStopped = r.worldStopped := congrArg (·.worldStopped) hmasked
  cases op with
  | parked id hold =>
    show r'.holds id hold = true
    rw [← holds_masked, hmasked, holds_masked]
    exact h
  | stopWorld i => exact hworld.trans h
  | awaitStops i =>
    refine ⟨hworld.trans h.1, ?_⟩
    rw [← allStopped_masked, hmasked, allStopped_masked]
    exact h.2
  | awaitSuspension => trivial
  | _ => cases h

/-- A new pause is no reason to go on for those who sleep while the world is free. -/
theorem Detains.claim (h : r.Detains op) (hfree : r.worldStopped = false) :
    (r.claim i).Detains op := by
  cases op with
  | parked id hold =>
    obtain ⟨m, hm, ⟨hany, hcount⟩ | hpauses⟩ := holds_iff.mp h
    · refine holds_iff.mpr ⟨_, get?_claim hm, .inl ⟨hany, ?_⟩⟩
      split
      · exact hcount
      · rwa [Mutator.suspendCount_requestStop]
    · cases hfree.symm.trans hpauses.1
  | stopWorld i' => cases hfree.symm.trans h
  | awaitStops i' => cases hfree.symm.trans h.1
  | awaitSuspension => trivial
  | _ => cases h

/-- **A section after which somebody else is still asleep leaves it with the reason to sleep.** -/
theorem Section.detains (h : r.Section thread op' r' p) (hu : u ≠ thread) (hasleep : u ∈ r'.asleep)
    (hop : r.Detains op) : r'.Detains op := by
  cases h with
  | comesIn | stays => simp [park, sleep, wakeAll, hu] at hasleep
  | blocks | goesOn | leavesHeld | frees | givesUp | releases | detaches =>
    simp [wakeAll] at hasleep
  | misses | finds => exact hop
  | sleepsOn | looks | waits | arrives | waitsOn =>
    exact hop.of_map rfl rfl (List.map_id' _).symm (fun _ => rfl) (fun _ h => h) fun _ h => h
  | passes =>
    exact hop.update (fun _ => rfl) (fun _ h => h)
      fun m h => by rwa [Mutator.isStopped_withdrawRequest]
  | leaves =>
    refine hop.update (fun _ => Mutator.id_resumeRunning) (fun m h => ?_) fun m _ =>
      Mutator.isStopped_resumeRunning
    unfold Mutator.resumeRunning
    rw [if_pos h]
    simpa using h
  | raises hm =>
    refine hop.update (fun _ => Mutator.id_requestStop) (fun m _ => ?_) fun m h => ?_
    · rw [Mutator.suspendCount_requestStop]
      exact Nat.lt_min.mpr ⟨Nat.succ_pos _, by decide⟩
    · rw [Mutator.isStopped_requestStop]
      exact h
  | lowers hm hlow =>
    exact hop.update (fun _ => rfl) (fun _ _ => Nat.sub_pos_of_lt hlow) fun _ h => h
  | stops hfree => exact hop.claim hfree
  | asks hfree =>
    exact (hop.claim hfree).of_map rfl rfl (List.map_id' _).symm (fun _ => rfl) (fun _ h => h)
      fun _ h => h
  | attaches =>
    -- whoever comes in now stands behind all others
    cases op with
    | parked id hold =>
      obtain ⟨m, hm, hheld⟩ := holds_iff.mp hop
      refine holds_iff.mpr ⟨m, ?_, hheld⟩
      simp [get?, List.find?_append, show r.mutators.find? _ = some m from hm]
    | stopWorld i => exact hop
    | awaitStops i =>
      refine ⟨hop.1, allStopped_eq_false_iff.mpr ?_⟩
      obtain ⟨m, hm, hdelays⟩ := allStopped_eq_false_iff.mp hop.2
      exact ⟨m, List.mem_append_left _ hm, hdelays⟩
    | awaitSuspension => trivial
    | _ => cases hop

end Keeping

section Falling

theorem detains_park (h : r.holds id hold = true) :
    (r.park thread id).Detains (.parked id hold) := by
  obtain ⟨m, hm, hheld⟩ := holds_iff.mp h
  have hid : ∀ m : Mutator, ({ m with status := .suspended } : Mutator).id = m.id := fun _ => rfl
  refine holds_iff.mpr ⟨_, get?_update hid hm, hheld.imp_left fun hany => ⟨hany.1, ?_⟩⟩
  rw [if_pos rfl]
  exact hany.2

/-- **Whoever goes on waiting after a section of its own has just seen a reason for it.** -/
theorem Section.detains_own (h : r.Section thread op r' (.continues op'))
    (hkept : ∀ i, op = .awaitStops i → r.worldStopped = true) : r'.Detains op' := by
  cases h with
  | comesIn hpark => exact @detains_park _ _ _ .any hpark
  | stays hheld => exact detains_park hheld
  | sleepsOn hheld => exact hheld
  | looks hp =>
    rcases hp with ⟨v, hv⟩ | hv
    · cases hv
    · cases hv
      trivial
  | waits hstopped => exact hstopped
  | asks hfree hlate => exact ⟨rfl, hlate⟩
  | waitsOn hlate => exact ⟨hkept _ rfl, hlate⟩

/-- What a call may do to those who are asleep: nobody but its own thread falls asleep, and that one
then waits in it.  Who falls asleep until a thread is suspended has just seen that it is not. -/
structure Lulls (r : Registry) (thread : Nat) (r' : Registry) (p : Progress) : Prop where
  others : ∀ u ∈ r'.asleep, u ≠ thread → u ∈ r.asleep
  own : thread ∈ r'.asleep → ∃ op, p = .continues op ∧ op.waits = true ∧ ∀ target ms,
    op = .awaitSuspension target ms → ∃ m, r'.get? target = some m ∧ m.isSuspended = false

theorem lulls_nobody (h : thread ∉ r'.asleep) (hsub : r'.asleep ⊆ r.asleep) :
    r.Lulls thread r' p where
  others _ hu _ := hsub hu
  own hown := (h hown).elim

theorem lulls_wakeAll : r.Lulls thread r'.wakeAll p :=
  lulls_nobody List.not_mem_nil (List.nil_subset _)

theorem lulls_wake : r.Lulls thread (r.wake thread) p :=
  lulls_nobody (by simp [wake]) fun _ hu => (List.mem_filter.mp hu).1

theorem lulls_sleep (hsub : r'.asleep ⊆ r.asleep) (hop : op.waits = true)
    (hlook : ∀ target ms, op = .awaitSuspension target ms → ∃ m, r'.get? target = some m ∧
      m.isSuspended = false) : r.Lulls thread (r'.sleep thread) (.continues op) where
  others u hu hne := hsub ((List.mem_append.mp hu).resolve_right (by simpa using hne))
  own _ := ⟨op, rfl, hop, hlook⟩

theorem lulls_park : r.Lulls thread (r.park thread id) (.continues (.parked id hold)) :=
  lulls_sleep (List.nil_subset _) rfl fun _ _ => nofun

theorem lulls_of_step (h : r.step thread expired op = some (r', p))
    (hwaits : thread ∈ r.asleep → op.waits = true) : r.Lulls thread r' p := by
  have hawake : ∀ {q v}, q.asleep = r.asleep → op.waits = false → r.Lulls thread q v := by
    intro q v hq hop
    refine lulls_nobody (fun hown => ?_) (by rw [hq]; exact List.Subset.refl _)
    rw [hq] at hown
    cases hop.symm.trans (hwaits hown)
  cases section_of_step h with
  | comesIn | stays => exact lulls_park
  | blocks | goesOn | leavesHeld | frees | givesUp | releases | detaches => exact lulls_wakeAll
  | sleepsOn | waits | asks | waitsOn => exact lulls_sleep (List.Subset.refl _) rfl fun _ _ => nofun
  | arrives => exact lulls_wake
  | passes | leaves | raises | finds | lowers | attaches => exact hawake rfl rfl
  | misses hop => exact hawake rfl (by rcases hop with rfl | rfl <;> rfl)
  | stops =>
    refine lulls_nobody (fun hown => ?_) (List.Subset.refl _)
    have hasleep : r.isAsleep thread = true := List.contains_iff_mem.mpr hown
    rw [step, if_pos hasleep] at h
    cases h
  | looks =>
    simp only [step] at h
    split at h
    · cases h
    · split at h
      · cases h
        exact lulls_wake
      · next m hm =>
          split at h
          · cases h
            exact lulls_wake
          · next hsuspended =>
              split at h <;> cases h
              · exact lulls_wake
              · refine lulls_sleep (List.Subset.refl _) rfl fun target' ms' hop => ?_
                cases hop
                exact ⟨m, hm, by simpa using hsuspended⟩

end Falling

theorem Detains.waits (h : r.Detains op) : op.waits = true := by
  cases op <;> first | rfl | cases h

theorem mem_asleep_of_step (h : r.step thread expired op = none) : thread ∈ r.asleep := by
  have hasleep : ∀ {b}, (r.isAsleep thread && b) = true → thread ∈ r.asleep := by
    intro b hb
    simpa [isAsleep] using (Bool.and_eq_true_iff.mp hb).1
  cases op with
  | poll | leaveBlocking | requestSuspend =>
    simp only [step] at h
    split at h <;> cases h
  | parked =>
    simp only [step] at h
    split at h
    · next hsleeps => simpa [isAsleep] using hsleeps
    · split at h <;> cases h
  | stopWorld =>
    simp only [step] at h
    split at h
    · next hsleeps => simpa [isAsleep] using hsleeps
    · (repeat' split at h) <;> cases h
  | awaitSuspension =>
    simp only [step] at h
    split at h
    · next hsleeps => exact hasleep hsleeps
    · (repeat' split at h) <;> cases h
  | awaitStops =>
    simp only [step] at h
    split at h
    · next hsleeps => exact hasleep hsleeps
    · (repeat' split at h) <;> cases h
  | resume =>
    simp only [step] at h
    (repeat' split at h) <;> cases h
  | _ => cases h

end Registry

namespace Crew

variable {c c' : Crew} {t : Nat} {x : Actor} {task : Task} {m : Move}

/-- Whoever is asleep on a registry is in a call on it that has a reason to sleep. -/
def Detained (c : Crew) : Prop :=
  ∀ {e u : Nat} {r : Registry}, c.registries[e]? = some r → u ∈ r.asleep →
    ∃ y op rest, c.actors[u]? = some y ∧ y.tasks = .registry e op :: rest ∧ r.Detains op

theorem IsFresh.detained (h : c.IsFresh) : c.Detained := fun hr hu => by
  rw [(h.registries hr).2] at hu
  cases hu

/-- How somebody who is asleep on a registry after a move came to be so. -/
inductive Sleeper (m : Move) (c c' : Crew) (e u : Nat) (r' : Registry) : Prop
  /-- It has fallen asleep after a section of its own. -/
  | falls {x y : Actor} {op op' : Operation} {rest : List Task} {r : Registry} {expired : Bool}
      (hx : c.actors[u]? = some x) (htasks : x.tasks = .registry e op :: rest)
      (hr : c.registries[e]? = some r) (hstep : r.step u expired op = some (r', .continues op'))
      (hlulls : r.Lulls u r' (.continues op'))
      (hy : c'.actors[u]? = some y) (hnext : y.tasks = .registry e op' :: rest)
  /-- It was asleep and sleeps on. -/
  | sleepsOn {y : Actor} {op : Operation} {rest : List Task} {r : Registry}
      (hr : c.registries[e]? = some r) (hu : u ∈ r.asleep) (hy : c.actors[u]? = some y)
      (hy' : c'.actors[u]? = some y) (htasks : y.tasks = .registry e op :: rest)
      (hdetains : r.Detains op) (hchange : r'.masked = r.masked ∨
        ∃ t x op₁ rest₁ expired p, m = .step t ∧ u ≠ t ∧ c.actors[t]? = some x ∧
        x.tasks = .registry e op₁ :: rest₁ ∧ r.step t expired op₁ = some (r', p))

/-- **Nobody but the thread that moves falls asleep.** -/
theorem Detained.sleeper (h : c.Detained) (hturn : Turn m c c')
    (hr' : c'.registries[e]? = some r') (hu : u ∈ r'.asleep) : Sleeper m c c' e u r' := by
  have hbusy : m ≠ .step u → ∀ {y op rest}, c.actors[u]? = some y →
      y.tasks = .registry e op :: rest → c'.actors[u]? = some y :=
    fun hm _ _ _ hy htasks => hturn.getElem?_of_busy hm hy (by rw [htasks]; nofun)
  cases hturn with
  | rests | waits =>
    obtain ⟨y, op, rest, hy, htasks, hdetains⟩ := h hr' hu
    exact .sleepsOn hr' hu hy hy htasks hdetains (.inl rfl)
  | comes | begins | favours =>
    obtain ⟨y, op, rest, hy, htasks, hdetains⟩ := h hr' hu
    exact .sleepsOn hr' hu hy (hbusy nofun hy htasks) htasks hdetains (.inl rfl)
  | @acts _ _ t x task rest hx htasks hact =>
    cases hr : c.registries[e]? with
    | none =>
      rw [(hact.isFresh_registry hr hr').2] at hu
      cases hu
    | some r =>
      by_cases hcall : ∃ op, task = .registry e op
      · obtain ⟨op, rfl⟩ := hcall
        obtain ⟨expired, r₁, p, hstep, rfl⟩ := hact.of_registry hr
        cases (getElem?_modifyRegistry_self hr).symm.trans hr'
        have hwaits : t ∈ r.asleep → op.waits = true := by
          intro ht
          obtain ⟨y, op', tail, hy, hnext, hdetains⟩ := h hr ht
          cases hx.symm.trans hy
          cases htasks.symm.trans hnext
          exact hdetains.waits
        have hlulls := Registry.lulls_of_step hstep hwaits
        by_cases hut : u = t
        · subst hut
          obtain ⟨op', rfl, -⟩ := hlulls.own hu
          exact .falls hx htasks hr hstep hlulls
            (getElem?_modify_self (getElem?_modify_self hx)) rfl
        · have hu' := hlulls.others u hu hut
          obtain ⟨y, op', tail, hy, hnext, hdetains⟩ := h hr hu'
          exact .sleepsOn hr hu' hy (hact.getElem?_of_other hut hy) hnext hdetains
            (.inr ⟨t, x, op, rest, expired, p, rfl, hut, hx, htasks, hstep⟩)
      · -- everybody asleep here is in a call, so it is not the thread that acts
        obtain ⟨r₁, hr₁, halters⟩ := hact.exists_registry hr
        cases hr₁.symm.trans hr'
        have hmasked : r'.masked = r.masked ∧ r'.asleep = r.asleep := by
          cases halters with
          | nothing => exact ⟨rfl, rfl⟩
          | call htask => exact (hcall ⟨_, htask⟩).elim
          | note _ hf => exact ⟨Registry.masked_update hf, rfl⟩
        rw [hmasked.2] at hu
        obtain ⟨y, op', tail, hy, hnext, hdetains⟩ := h hr hu
        have hut : u ≠ t := by
          rintro rfl
          cases hx.symm.trans hy
          exact hcall ⟨op', (List.cons.inj (htasks.symm.trans hnext)).1⟩
        exact .sleepsOn hr hu hy (hact.getElem?_of_other hut hy) hnext hdetains (.inl hmasked.1)

/-- **Nobody ever sleeps without a reason.** -/
theorem Detained.turn (h : c.Detained) (hl : c.Lawful) (hturn : Turn m c c') : c'.Detained := by
  intro e u r' hr' hu
  cases h.sleeper hturn hr' hu with
  | falls hx htasks hr hstep _ hy hnext =>
    refine ⟨_, _, _, hy, hnext, (Registry.section_of_step hstep).detains_own ?_⟩
    rintro i rfl
    obtain ⟨r₀, hr₀, hstopped⟩ := hl.kept hx htasks
    cases hr.symm.trans hr₀
    exact hstopped
  | sleepsOn _ _ _ hy' htasks hdetains hchange =>
    refine ⟨_, _, _, hy', htasks, ?_⟩
    rcases hchange with hmasked | ⟨t, x, op₁, rest₁, expired, p, -, hut, -, -, hstep⟩
    · exact hdetains.of_masked hmasked
    · exact (Registry.section_of_step hstep).detains hut hu hdetains

theorem Turn.registries (h : Turn m c c') (hm : ∀ t, m ≠ .step t) :
    c'.registries = c.registries := by
  cases h with
  | acts | waits => exact (hm _ rfl).elim
  | _ => rfl

end Crew

namespace World

variable {w : World} {m : Move} {t e : Nat} {r : Registry} {op : Operation}

section Sleepers

/-- The threads that are asleep on the registry of an engine. -/
def asleep (w : World) (e : Nat) : List Nat := (w.engines[e]?).elim [] (·.registry.asleep)

/-- The record of a thread that is attached to an engine, without what interrupts leave there. -/
def record (w : World) (e : Nat) (target : ThreadId) : Option Mutator :=
  (w.engines[e]?).bind fun x => (x.registry.get? target).map Mutator.masked

theorem asleep_crew : w.asleep e = (w.crew.registries[e]?).elim [] Registry.asleep := by
  rw [asleep, getElem?_registries_crew]
  cases w.engines[e]? <;> rfl

theorem record_eq (e : Nat) (id : ThreadId) :
    w.record e id = (w.crew.record e id).map Mutator.masked := by
  rw [record_crew]
  unfold record
  cases w.engines[e]? <;> rfl

end Sleepers

section Records

/-- What a move does to the registry of an engine. -/
inductive Registers (w : World) (m : Move) (e : Nat) (r : Registry) : Registry → Prop
  /-- Nobody makes a call on it. -/
  | nothing {r' : Registry} (hcall : ∀ t op, m = .step t → w.callOf t = some (e, op) →
        w.step t = none) (h : r'.masked = r.masked) : Registers w m e r r'
  | call {t : Nat} {op : Operation} {expired : Bool} {r' : Registry} {p : Progress}
      (hm : m = .step t) (hawake : (w.step t).isSome = true) (hcall : w.callOf t = some (e, op))
      (h : r.step t expired op = some (r', p)) : Registers w m e r r'

theorem callOf_of_actor {x : Actor} {rest : List Task} (hx : w.crew.actors[t]? = some x)
    (htasks : x.tasks = .registry e op :: rest) : w.callOf t = some (e, op) := by
  unfold callOf
  rw [nextTask_of_actor hx htasks]

/-- **A move changes a registry by a call on it,** but for what interrupts leave there. -/
theorem exists_registers (m : Move) (hr : w.crew.registries[e]? = some r) :
    ∃ r', (w.move m).crew.registries[e]? = some r' ∧ w.Registers m e r r' := by
  by_cases hsteps : ∃ t, m = .step t
  · obtain ⟨t, rfl⟩ := hsteps
    cases h : w.step t with
    | none =>
      refine ⟨r, by rw [move, h]; exact hr, .nothing ?_ rfl⟩
      rintro _ _ ⟨⟩ -
      exact h
    | some w' =>
      obtain ⟨x, task, rest, hx, htasks, hact⟩ := act_step h
      obtain ⟨r', hr', halters⟩ := hact.exists_registry hr
      refine ⟨r', by rw [move, h]; exact hr', ?_⟩
      have hnone : (∀ op, task ≠ .registry e op) →
          ∀ u op, Move.step t = .step u → w.callOf u = some (e, op) → w.step u = none := by
        rintro htask _ op ⟨⟩ hcall
        obtain ⟨y, more, hy, hmore⟩ := exists_tasks_of_callOf hcall
        rw [getElem?_actors, hy] at hx
        cases hx
        cases hmore.symm.trans htasks
        exact (htask op rfl).elim
      cases halters with
      | nothing htask => exact .nothing (hnone htask) rfl
      | call htask hstep =>
        subst htask
        exact .call rfl (by rw [h]; rfl) (callOf_of_actor hx htasks) hstep
      | note htask hf => exact .nothing (hnone htask) (Registry.masked_update hf)
  · refine ⟨r, ?_, .nothing (fun t _ hm _ => (hsteps ⟨t, hm⟩).elim) rfl⟩
    rw [(turn_move m).registries fun t hm => hsteps ⟨t, hm⟩, hr]

end Records

section Releasing

theorem detained_after (s : EngineSpec) (label : String) (moves : List Move) :
    ((start s label).after moves).crew.Detained :=
  crew_induction s label (P := fun moves => ((start s label).after moves).crew.Detained) (fun h =>
    h.detained) (fun _ _ hl hturn h => h.turn hl hturn) moves

theorem mem_asleep_of_callOf (hcall : w.callOf t = some (e, op)) (hstuck : w.step t = none) :
    t ∈ w.asleep e := by
  obtain ⟨x, rest, hx, htasks⟩ := exists_tasks_of_callOf hcall
  have hrun : (w.modifyThread t fun z => { z with tasks := rest }).runOperation t e op = none := by
    simpa only [step, hx, htasks, runTask, Option.map_eq_none_iff] using hstuck
  unfold runOperation at hrun
  split at hrun
  · cases hrun
  · next a ha =>
      dsimp only at hrun
      split at hrun
      · next hstep =>
          have ha' : w.engines[e]? = some a := ha
          unfold asleep
          rw [ha']
          exact Registry.mem_asleep_of_step hstep
      · split at hrun <;> cases hrun

theorem detains_of_asleep (h : w.crew.Detained) (hcall : w.callOf t = some (e, op))
    (hasleep : t ∈ w.asleep e) : ∃ x, w.engines[e]? = some x ∧ x.registry.Detains op := by
  obtain ⟨x, rest, hx, htasks⟩ := exists_tasks_of_callOf hcall
  unfold asleep at hasleep
  cases ha : w.engines[e]? with
  | none =>
    rw [ha] at hasleep
    cases hasleep
  | some a =>
    rw [ha] at hasleep
    have hr : w.crew.registries[e]? = some a.registry := by
      rw [getElem?_registries_crew, ha]
      rfl
    obtain ⟨y, op', tail, hy, hnext, hdetains⟩ := h hr hasleep
    rw [getElem?_actors, hx] at hy
    cases hy
    cases htasks.symm.trans hnext
    exact ⟨a, rfl, hdetains⟩

/-- Whoever makes a call on a registry and has no reason to sleep performs a section of it. -/
theorem exists_call (hd : w.crew.Detained) (hcall : w.callOf t = some (e, op))
    (hr : w.crew.registries[e]? = some r) (hfree : ¬r.Detains op) :
    ∃ x rest expired r' p, w.crew.actors[t]? = some x ∧ x.tasks = .registry e op :: rest ∧
    r.step t expired op = some (r', p) ∧ (w.move (.step t)).crew =
      ((w.crew.take t rest).modifyRegistry e fun _ => r').modify t (Actor.goOn e p) := by
  cases hstep : w.step t with
  | none =>
    obtain ⟨y, hy, hdetains⟩ := detains_of_asleep hd hcall (mem_asleep_of_callOf hcall hstep)
    rw [getElem?_registries_crew, hy] at hr
    cases hr
    exact (hfree hdetains).elim
  | some w' =>
    obtain ⟨x, task, rest, hx, htasks, hact⟩ := act_step hstep
    obtain ⟨y, more, hy, hmore⟩ := exists_tasks_of_callOf hcall
    obtain rfl : x = y.actor := Option.some.inj (hx.symm.trans (actor_of_thread hy))
    cases htasks.symm.trans hmore
    obtain ⟨expired, r', p, hsection, hcrew⟩ := hact.of_registry hr
    refine ⟨_, _, expired, r', p, hx, htasks, hsection, ?_⟩
    rw [move, hstep]
    exact hcrew

/-- Nobody is left asleep who could go on. -/
structure Releases (w : World) : Prop where
  /-- Whoever cannot move inside a call on a registry sleeps there, and nobody has woken it. -/
  asleep : ∀ t e op, w.callOf t = some (e, op) → w.step t = none → t ∈ w.asleep e
  /-- A parked thread sleeps only as long as it has to park, or as a pause holds it if it looks for
  that only. -/
  parked : ∀ t e id hold, w.callOf t = some (e, .parked id hold) → t ∈ w.asleep e →
    ∃ x, w.engines[e]? = some x ∧ x.registry.holds id hold = true
  /-- Whoever is about to stop a world sleeps only as long as somebody else has stopped it. -/
  stopping : ∀ t e i, w.callOf t = some (e, .stopWorld i) → t ∈ w.asleep e →
    ∃ x, w.engines[e]? = some x ∧ x.registry.worldStopped = true
  /-- Whoever has stopped a world sleeps only as long as somebody does not stand still. -/
  awaiting : ∀ t e i, w.callOf t = some (e, .awaitStops i) → t ∈ w.asleep e →
    ∃ x, w.engines[e]? = some x ∧ x.registry.worldStopped = true ∧ x.registry.allStopped = false

/-- **Nobody misses its release.**  In no run is a parked thread left asleep that nothing holds, nor
a thread that waits to stop a free world, nor one that waits for threads that all stand still;
whoever cannot move inside such a call is asleep. -/
theorem releases_after (s : EngineSpec) (label : String) (moves : List Move) :
    ((start s label).after moves).Releases := by
  have hdetained : ((start s label).after moves).crew.Detained := detained_after s label moves
  refine ⟨fun t e op => mem_asleep_of_callOf, ?_, ?_, ?_⟩
  · intro t e id hold hcall hasleep
    exact detains_of_asleep hdetained hcall hasleep
  · intro t e i hcall hasleep
    exact detains_of_asleep hdetained hcall hasleep
  · intro t e i hcall hasleep
    exact detains_of_asleep hdetained hcall hasleep

/-- One thread parks in a pause of the other, and sleeps as long as that lasts. -/
example : ((start standardEngine "gc").after (parkMoves ++ [.step 0])).asleep 0 = [1] ∧
    ((start standardEngine "gc").after (parkMoves ++ [.step 0])).callOf 1 =
      some (0, .parked 2 .any) ∧
    ((start standardEngine "gc").after (parkMoves ++ [.step 0])).canMove 1 = false := by
  refine ⟨?_, ?_, ?_⟩ <;> decide +kernel

end Releasing

end World

end ManagedHeap
