import ManagedHeap.Proofs.Beginnings
import ManagedHeap.Proofs.Regions
import ManagedHeap.Proofs.Releases

/-!
# Suspensions

**Input.**  A run, and a thread that was suspended in it and stands still.

**Algorithm.**  A thread that was suspended stands still inside a region or parked, and nobody but
itself makes it run.  It looks for its suspension before it runs again, but for one place: where it
has waited for the lock of a collector it looks for pauses only, so that it never sleeps with the
lock.  What stands behind such a look on its stack is the collection that it is about to begin.

**Results.**  `World.suspended_iff_not_endsSuspension`: the moves after which a suspended thread is
not suspended any more.
-/

namespace ManagedHeap

section Deferring

/-- Whether a task waits inside a region for something else than a collector. -/
def Task.isWait : Task → Bool
  | .awaitDrain .. | .waitOnQueue .. => true
  | _ => false

/-- Whether a task that puts off suspensions stands in front of the collection for which it does so,
and a region has the right body. -/
def Task.Defers (rest : List Task) : Task → Prop
  | .registry _ (.leaveBlocking _ .pause) | .registry _ (.parked _ .pause) =>
    ∃ e reason more, rest = .endRegion :: .beginCycle e reason :: .unlockCollector e ::
      .checkpoint e :: more
  | .blocking .pause inner =>
    ∃ e reason more, inner = .lockCollector e ∧
      rest = .beginCycle e reason :: .unlockCollector e :: .checkpoint e :: more
  | .blocking .any inner => inner.isWait = true
  | .perform _ => rest = []
  | _ => True

/-- Whether a task is not one of those with which a suspension, a collection or a finalizer goes
on. -/
def Task.isPlain : Task → Bool
  | .lockCollector _ | .delivered _ => true
  | task => task.isOpening || (task.isSide || task.isWait)

def Task.isLoose : Task → Bool
  | .registry _ (.leaveBlocking _ .pause) | .registry _ (.parked _ .pause) => false
  | .blocking .any inner => inner.isWait
  | .blocking .. | .perform _ => false
  | _ => true

namespace Task

variable {task : Task} {rest : List Task}

theorem defers_of_isLoose (h : task.isLoose = true) : task.Defers rest := by
  cases task with
  | registry e op =>
    cases op with
    | leaveBlocking id hold | parked id hold =>
      cases hold with
      | any => trivial
      | pause => cases h
    | _ => trivial
  | blocking hold inner =>
    cases hold with
    | any => exact h
    | pause => cases h
  | perform i => cases h
  | _ => trivial

theorem isPlain_of_isSide (h : task.isSide = true) : task.isPlain = true := by
  cases task <;> first | rfl | cases h

theorem isPlain_of_isOpening (h : task.isOpening = true) : task.isPlain = true := by
  cases task <;> first | rfl | cases h | exact Bool.or_eq_true_iff.mpr (.inl h)

theorem isPlain_of_isProgram (h : task.isProgram = true) : task.isPlain = true := by
  cases task <;> first | rfl | cases h

theorem isPlain_of_isWait (h : task.isWait = true) : task.isPlain = true := by
  cases task <;> first | rfl | cases h

theorem isPlain_of_blocking {hold : Hold} {inner : Task}
    (h : (Task.blocking hold inner).Defers rest) : inner.isPlain = true := by
  cases hold with
  | any => exact isPlain_of_isWait h
  | pause =>
    obtain ⟨e, reason, more, rfl, -⟩ := h
    rfl

theorem isLoose_of_isPlain (h : task.isPlain = true) : task.isLoose = true := by
  cases task with
  | registry e op =>
    cases op with
    | leaveBlocking id hold | parked id hold =>
      cases hold with
      | any => rfl
      | pause => cases h
    | _ => rfl
  | blocking hold inner =>
    cases hold with
    | any => cases inner <;> first | rfl | cases h
    | pause => cases inner <;> cases h
  | perform i => cases h
  | _ => rfl

end Task

/-- **Suspensions are put off in front of collections only.** -/
theorem World.isKept_defers (w : World) : IsKept w fun _ task rest => task.Defers rest where
  mono h := h
  serve _ _ := trivial
  perform _ _ := rfl
  opening := by
    intro past t i rest tasks h hi hrest
    have hfree : ∀ (task : Task) rest, task.isOpening = true → task.Defers rest :=
      fun _ _ h => Task.defers_of_isLoose (Task.isLoose_of_isPlain (Task.isPlain_of_isOpening h))
    cases h with
    | plain h => exact hrest.append_of_free hfree h
    | collects | drains => exact ⟨trivial, trivial, hrest⟩
    | suspends _ h | resumes _ h => exact ⟨trivial, trivial, hrest.append_of_free hfree h⟩
  produces := by
    intro past t task rest tasks r a c _ h htask hrest
    have hfree : ∀ (task : Task) rest, task.isLoose = true → task.Defers rest :=
      fun _ _ => Task.defers_of_isLoose
    have hplain : ∀ (task : Task) rest, task.isPlain = true → task.Defers rest :=
      fun _ _ h => Task.defers_of_isLoose (Task.isLoose_of_isPlain h)
    cases h with
    | aside _ htasks => exact hrest.append_of_free hplain (all_imp Task.isPlain_of_isSide htasks)
    | proceeds _ htasks =>
      exact hrest.append_of_free hplain (all_imp Task.isPlain_of_isProgram htasks)
    | operates hx hstep =>
      cases Registry.section_of_step hstep with
      | @stays id hold =>
        cases hold with
        | any => exact ⟨trivial, hrest⟩
        | pause => exact ⟨htask, hrest⟩
      | sleepsOn => exact ⟨htask, hrest⟩
      | looks hp =>
        rcases hp with ⟨v, rfl⟩ | rfl
        · exact hrest
        · exact ⟨trivial, hrest⟩
      | _ => exact hrest.append_of_free hfree rfl
    | @enters hold _ e id inner =>
      cases hold with
      | any =>
        exact ⟨trivial, hplain _ _ (Task.isPlain_of_isWait htask), trivial, trivial, hrest⟩
      | pause =>
        obtain ⟨e, reason, more, rfl, rfl⟩ := htask
        exact ⟨trivial, trivial, ⟨_, _, _, rfl⟩, trivial, hrest⟩
    | @nests hold _ inner =>
      cases hold with
      | any => exact ⟨hplain _ _ (Task.isPlain_of_isWait htask), hrest⟩
      | pause =>
        obtain ⟨e, reason, more, rfl, rfl⟩ := htask
        exact ⟨trivial, hrest⟩
    | @serves e _ _ _ jobs | @drains e _ _ _ jobs =>
      exact hrest.append_of_free hfree (by simp [Task.isLoose])
    | collects | collectsOpen | collectsFirst | collectsAgain | stopsAfter =>
      exact ⟨⟨_, _, _, rfl, rfl⟩, hrest.append_of_free hfree rfl⟩
    | _ => exact hrest.append_of_free hfree rfl

end Deferring

namespace Registry

variable {r r' : Registry} {thread : Nat} {id target : ThreadId} {m : Mutator} {op : Operation}
  {p : Progress}

/-- Whether a section ends the suspension of a thread: the last resumption, its end, and its return
from a region in which it looks for pauses only. -/
inductive Frees (r : Registry) (id : ThreadId) (m : Mutator) : Operation → Prop
  | resume (h : m.suspendCount = 1) : Frees r id m (.resume id)
  | detach : Frees r id m (.detach id)
  | leave (h : ¬r.Pauses id) : Frees r id m (.leaveBlocking id .pause)
  | goOn (h : ¬r.Pauses id) : Frees r id m (.parked id .pause)

/-- **A thread that is suspended stays so in every section but those that end its suspension.** -/
theorem Section.exists_suspended (h : r.Section thread op r' p)
    (hm : r.get? id = some m) (hs : m.isSuspended = true)
    (hop : ¬r.Frees id m op) : ∃ m', r'.get? id = some m' ∧ m'.isSuspended = true := by
  obtain ⟨hcount, hstopped⟩ := Mutator.isSuspended_iff.mp hs
  -- whoever is suspended and goes on looked for pauses only
  have hpause : ∀ {hold}, r.holds id hold = false → ¬r.Pauses id ∧ hold = .pause := by
    intro hold hfree
    obtain ⟨hp, hany⟩ := free_of_holds _ hm hfree
    cases hold with
    | any => exact (Nat.ne_of_gt hcount (hany rfl)).elim
    | pause => exact ⟨hp, rfl⟩
  have hturns := h.turns id
  rw [hm] at hturns
  generalize r'.get? id = o at hturns
  cases hturns with
  | edits _ hedits =>
    refine ⟨_, rfl, Mutator.isSuspended_iff.mpr ?_⟩
    cases hedits with
    | keeps => exact ⟨hcount, hstopped⟩
    | comesIn | blocks | stays => exact ⟨hcount, rfl⟩
    | passes hfree => exact (Nat.ne_of_gt hcount ((free_of_holds .any hm hfree).2 rfl)).elim
    | leaves hfree =>
      obtain ⟨hp, rfl⟩ := hpause hfree
      exact (hop (.leave hp)).elim
    | goesOn hfree =>
      obtain ⟨hp, rfl⟩ := hpause hfree
      exact (hop (.goOn hp)).elim
    | raises =>
      rw [Mutator.suspendCount_requestStop, Mutator.isStopped_requestStop]
      exact ⟨Nat.lt_min.mpr ⟨Nat.succ_pos _, by decide⟩, hstopped⟩
    | lowers hmany => exact ⟨Nat.sub_pos_of_lt hmany, hstopped⟩
    | leavesHeld hlast | frees hlast => exact (hop (.resume hlast)).elim
  | asked =>
    rw [Mutator.requestStop_of_isStopped hstopped]
    exact ⟨m, rfl, hs⟩
  | released => exact ⟨_, rfl, by rwa [if_neg (Nat.ne_of_gt hcount)]⟩
  | goes => exact (hop .detach).elim

/-- **A section that ends the suspension of a thread does so.** -/
theorem Section.not_suspended (h : r.Section thread op r' p) (hm : r.get? id = some m)
    (hop : r.Frees id m op) {m' : Mutator} (hm' : r'.get? id = some m') :
    m'.isSuspended = false := by
  have hturns := h.turns id
  rw [hm, hm'] at hturns
  cases hturns with
  | edits _ hedits =>
    cases hedits with
    | keeps hspares =>
      cases hop with
      | resume hlast => cases (hspares rfl).symm.trans hlast
      | detach | leave => exact (hspares rfl).elim
      | goOn hfree =>
        obtain ⟨k, -, hno | hp⟩ := holds_iff.mp (hspares rfl)
        · cases hno.1
        · exact (hfree hp).elim
    | leaves | goesOn => rw [Mutator.isSuspended, Mutator.isStopped_resumeRunning, Bool.and_false]
    | stays hheld =>
      cases hop with
      | leave hfree =>
        obtain ⟨k, -, hno | hp⟩ := holds_iff.mp hheld
        · cases hno.1
        · exact (hfree hp).elim
    | lowers hmany =>
      cases hop with
      | resume hlast => omega
    | leavesHeld | frees => rfl
    | comesIn | passes | blocks | raises => cases hop
  | asked => cases hop
  | released hreleases => rcases hreleases with rfl | ⟨i, rfl⟩ <;> cases hop

end Registry

namespace World

variable {w : World} {m : Move} {t e : Nat} {id : ThreadId} {r : Registry}

section Calls

theorem exists_actor_of_stackOf {st : Stack} (hs : w.stackOf t = some st) :
    ∃ x, w.crew.actors[t]? = some x ∧ x.tasks = st.tasks := by
  obtain ⟨y, hy, rfl⟩ := Option.map_eq_some_iff.mp hs
  exact ⟨y.actor, by rw [getElem?_actors, hy]; rfl, rfl⟩

theorem stackOf_of_actor {x : Actor} (hx : w.crew.actors[t]? = some x) :
    w.stackOf t = some ⟨x.tasks, x.reply⟩ := by
  rw [getElem?_actors] at hx
  obtain ⟨y, hy, rfl⟩ := Option.map_eq_some_iff.mp hx
  rw [stackOf, hy]
  rfl

theorem record_of_registry (hr : w.crew.registries[e]? = some r) :
    w.record e id = (r.get? id).map Mutator.masked := by
  rw [record_eq, Crew.record, hr]
  rfl

/-- Whoever makes a call on a registry and has no reason to sleep performs a section of it, and goes
on. -/
theorem exists_operation {op : Operation} {rest : List Task} {reply : Reply} (hd : w.crew.Detained)
    (hs : w.stackOf t = some ⟨.registry e op :: rest, reply⟩) (hr : w.crew.registries[e]? = some r)
    (hfree : ¬r.Detains op) : ∃ expired r' p, r.step t expired op = some (r', p) ∧
      (w.move (.step t)).stackOf t = some ⟨p.tasks e ++ rest, p.answer?.getD reply⟩ ∧
      (w.move (.step t)).crew.registries[e]? = some r' := by
  obtain ⟨y, hy, htasks, rfl⟩ := exists_thread_of_stackOf hs
  obtain ⟨x, more, expired, r', p, hx, hmore, hstep, hcrew⟩ :=
    exists_call hd (callOf_of_tasks hy htasks) hr hfree
  cases (actor_of_thread hy).symm.trans hx
  cases htasks.symm.trans hmore
  refine ⟨expired, r', p, hstep, ?_, by rw [hcrew]; exact Crew.getElem?_modifyRegistry_self hr⟩
  have hactor : (w.move (.step t)).crew.actors[t]? =
      some (Actor.goOn e p { y.actor with tasks := rest }) := by
    rw [hcrew]
    exact Crew.getElem?_modify_self (Crew.getElem?_modify_self hx)
  rw [stackOf_of_actor hactor]
  cases p <;> rfl

end Calls

section Stability

/-- The moves that end the suspension of a thread. -/
inductive EndsSuspension (w : World) (e : Nat) (id : ThreadId) : Move → Prop
  /-- The last resumption. -/
  | resumes {t : Nat} {m : Mutator} (hcall : w.callOf t = some (e, .resume id))
      (hm : w.record e id = some m) (hlast : m.suspendCount = 1) : EndsSuspension w e id (.step t)
  | detaches {t : Nat} (hself : w.currentId t e = some id)
      (hcall : w.callOf t = some (e, .detach id)) : EndsSuspension w e id (.step t)
  /-- The thread itself leaves the region in which it has waited for the lock of a collector, to
  collect, and no pause of another thread keeps it. -/
  | leaves {t k : Nat} {op : Operation} {reason : Reason} {rest : List Task}
      {reply : Reply} {x : Runtime} (hself : w.currentId t e = some id)
      (hop : op = .leaveBlocking id .pause ∨ op = .parked id .pause ∧ t ∉ w.asleep e)
      (hstack : w.stackOf t = some ⟨.registry e op :: .endRegion :: .beginCycle k reason ::
        .unlockCollector k :: .checkpoint k :: rest, reply⟩) (hx : w.engines[e]? = some x)
      (hfree : ¬x.registry.Pauses id) : EndsSuspension w e id (.step t)

theorem suspended_of_registry (hr : w.crew.registries[e]? = some r) :
    w.Suspended e id ↔ ∃ m, r.get? id = some m ∧ m.isSuspended = true := by
  rw [suspended_iff, Crew.record, hr]
  rfl

theorem endsSuspension_of_frees {op : Operation} {expired : Bool}
    {r' : Registry} {p : Progress} {k : Mutator} (hl : w.crew.Lawful)
    (hdefers : ∀ x, w.stackOf t = some x → Arranged (fun task rest => task.Defers rest) x.tasks)
    (hr : w.crew.registries[e]? = some r) (hcall : w.callOf t = some (e, op))
    (hk : r.get? id = some k) (hstep : r.step t expired op = some (r', p)) (h : r.Frees id k op) :
    w.EndsSuspension e id (.step t) := by
  obtain ⟨y, rest, hy, htasks⟩ := exists_tasks_of_callOf hcall
  have hactor : w.crew.actors[t]? = some y.actor := by rw [getElem?_actors, hy]; rfl
  have hposture : Posture y.actor.badge (.registry e op :: rest) := htasks ▸ hl.posture hactor
  have hself : op.own? = some id → w.currentId t e = some id := fun hown =>
    (currentId_eq_some_iff hactor).mpr (Crew.badge_of_isOwn ⟨op, rfl, hown⟩ hposture)
  have hstack : w.stackOf t = some ⟨.registry e op :: rest, y.reply⟩ := by
    rw [stackOf, hy, Option.map_some, Thread.stack, htasks]
  rw [getElem?_registries_crew] at hr
  obtain ⟨x, hx, rfl⟩ := Option.map_eq_some_iff.mp hr
  cases h with
  | resume hlast =>
    exact .resumes (m := k.masked) hcall (by rw [record, hx, Option.bind_some, hk]; rfl) hlast
  | detach => exact .detaches (hself rfl) hcall
  | leave hfree =>
    obtain ⟨k, reason, more, rfl⟩ := (hdefers _ hstack).1
    exact .leaves (hself rfl) (.inl rfl) hstack hx hfree
  | goOn hfree =>
    obtain ⟨k, reason, more, rfl⟩ := (hdefers _ hstack).1
    refine .leaves (hself rfl) (.inr ⟨rfl, fun hasleep => ?_⟩) hstack hx hfree
    have hsleeps : x.registry.isAsleep t = true := by
      rw [asleep, hx] at hasleep
      simpa [Registry.isAsleep] using hasleep
    rw [Registry.step, if_pos hsleeps] at hstep
    cases hstep

theorem EndsSuspension.exists_frees {k : Mutator} (h : w.EndsSuspension e id m)
    (hd : w.crew.Detained) (hr : w.crew.registries[e]? = some r) (hk : r.get? id = some k) :
    ∃ t op, m = .step t ∧ w.callOf t = some (e, op) ∧ w.step t ≠ none ∧ r.Frees id k op := by
  rw [getElem?_registries_crew] at hr
  obtain ⟨x, hx, rfl⟩ := Option.map_eq_some_iff.mp hr
  -- whoever cannot move is asleep, and has a reason
  have hmoves : ∀ {t op}, w.callOf t = some (e, op) →
      (t ∈ w.asleep e → ¬x.registry.Detains op) → w.step t ≠ none := by
    intro t op hcall hawake hstuck
    have hasleep := mem_asleep_of_callOf hcall hstuck
    obtain ⟨y, hy, hdetains⟩ := detains_of_asleep hd hcall hasleep
    cases hx.symm.trans hy
    exact hawake hasleep hdetains
  cases h with
  | @resumes t m hcall hm hlast =>
    rw [record, hx, Option.bind_some, hk] at hm
    cases hm
    exact ⟨t, _, rfl, hcall, hmoves hcall fun _ h => h, .resume hlast⟩
  | @detaches t hself hcall => exact ⟨t, _, rfl, hcall, hmoves hcall fun _ h => h, .detach⟩
  | @leaves t k op reason rest reply y hself hop hstack hy hfree =>
    cases hx.symm.trans hy
    obtain ⟨z, hz, htasks, -⟩ := exists_thread_of_stackOf hstack
    have hcall := callOf_of_tasks hz htasks
    rcases hop with rfl | ⟨rfl, hawake⟩
    · exact ⟨t, _, rfl, hcall, hmoves hcall fun _ h => h, .leave hfree⟩
    · exact ⟨t, _, rfl, hcall, hmoves hcall fun hasleep => (hawake hasleep).elim, .goOn hfree⟩

/-- **Whoever is suspended stays so.**  A thread that was suspended and stands still is suspended
after the next move of whatever run, but if that is its last resumption, its own end, or its return
from the region in which it has waited for the lock of a collector; these end its suspension. -/
theorem suspended_iff_not_endsSuspension (s : EngineSpec) (label : String) (moves : List Move)
    (m : Move) (e : Nat) (id : ThreadId) (h : ((start s label).after moves).Suspended e id) :
    ((start s label).after (moves ++ [m])).Suspended e id ↔
    ¬((start s label).after moves).EndsSuspension e id m := by
  have hl := crew_lawful_after s label moves
  have hd : ((start s label).after moves).crew.Detained := detained_after s label moves
  have hdefers := fun t => arranged_after (t := t) (isKept_defers (start s label)) moves
  rw [after_append]
  show (((start s label).after moves).move m).Suspended e id ↔ _
  generalize (start s label).after moves = w at h hl hd hdefers
  obtain ⟨k, hk, hs⟩ := suspended_iff.mp h
  obtain ⟨r, hr, hk⟩ := Option.bind_eq_some_iff.mp hk
  obtain ⟨r', hr', hregisters⟩ := exists_registers m hr
  rw [suspended_of_registry hr']
  cases hregisters with
  | nothing hcall hmasked =>
    constructor
    · intro _ hends
      obtain ⟨t, op, rfl, hop, hawake, -⟩ := hends.exists_frees hd hr hk
      exact hawake (hcall t op rfl hop)
    · intro _
      have hget : (r'.get? id).map Mutator.masked = some k.masked := by
        rw [← Registry.get?_masked, hmasked, Registry.get?_masked, hk]
        rfl
      obtain ⟨k', hk', hsame⟩ := Option.map_eq_some_iff.mp hget
      refine ⟨k', hk', ?_⟩
      have hsuspended : k'.masked.isSuspended = true := by rw [hsame]; exact hs
      exact hsuspended
  | @call t op expired _ p hm _ hcall hstep =>
    subst hm
    have hsection := Registry.section_of_step hstep
    constructor
    · rintro ⟨k', hk', hs'⟩ hends
      obtain ⟨u, op', hu, hcall', -, hfrees⟩ := hends.exists_frees hd hr hk
      cases hu
      cases hcall.symm.trans hcall'
      rw [hsection.not_suspended hk hfrees hk'] at hs'
      cases hs'
    · intro hends
      exact hsection.exists_suspended hk hs fun hfrees =>
        hends (endsSuspension_of_frees hl (hdefers t) hr hcall hk hstep hfrees)

/-- A thread has the lock of a collector and is still inside the region in which it has waited for
it when another one suspends it. -/
def deferMoves : List Move :=
  [.call "worker", .call "main"] ++ given 0 0 (.attach "gc" "worker") 8 ++
    given 0 1 (.collect "gc" (some .explicit)) 5 ++ given 1 2 (.suspend "gc" 1) 8

/-- The thread is suspended.  Its own step ends that, to begin a collection, and a step of the other
thread does not. -/
theorem endsSuspension_deferred :
    ((start standardEngine "gc").after deferMoves).Suspended 0 1 ∧
      ((start standardEngine "gc").after deferMoves).EndsSuspension 0 1 (.step 0) ∧
      ¬((start standardEngine "gc").after deferMoves).EndsSuspension 0 1 (.step 1) := by
  have hbefore : ((start standardEngine "gc").after deferMoves).Suspended 0 1 :=
    ⟨{ id := 1, name := "worker", status := .blocked, suspendCount := 1 }, by decide +kernel, rfl⟩
  have hother : ((start standardEngine "gc").after (deferMoves ++ [.step 1])).Suspended 0 1 :=
    ⟨{ id := 1, name := "worker", status := .blocked, suspendCount := 1 }, by decide +kernel, rfl⟩
  have hself : ¬((start standardEngine "gc").after (deferMoves ++ [.step 0])).Suspended 0 1 := by
    rintro ⟨m, hm, hs⟩
    have hrecord : ((start standardEngine "gc").after (deferMoves ++ [.step 0])).record 0 1 = some
        { id := 1, name := "worker", status := .safepointRequested, suspendCount := 1,
          pollRequested := true } := by
      decide +kernel
    cases hrecord.symm.trans hm
    cases hs
  refine ⟨hbefore, ?_, (suspended_iff_not_endsSuspension _ _ _ _ _ _ hbefore).mp hother⟩
  exact not_not.mp fun hno => hself ((suspended_iff_not_endsSuspension _ _ _ _ _ _ hbefore).mpr hno)

end Stability

end World

end ManagedHeap
