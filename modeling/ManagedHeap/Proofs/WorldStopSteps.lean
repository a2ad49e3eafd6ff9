import ManagedHeap.Proofs.WorldStops
import Mathlib.Logic.Relation

/-!
# What tasks do to registries and their keepers

**Input.**  A task that a thread has taken off its stack, or an instruction.

**Algorithm.**  Apart from the sections of registries, and from tasks that take over what the last
call gave, whatever a thread does is a sequence of shifts: ordinary tasks come on its stack, a call
is answered, an interrupt is noted, an engine or a thread is made, or a pause, an attachment or a
detachment begins.

**Results.**  `Crew.Act.shifts`: what an ordinary task or an instruction does is a sequence of
shifts.
-/

namespace ManagedHeap

/-- What a thread is given by one task and takes over in the next. -/
inductive Grant where
  /-- The world of an engine stands still. -/
  | world (engine : Nat)
  /-- A number in an engine. -/
  | badge (engine : Nat)
  /-- The engine has taken the number of the thread back. -/
  | exit
  deriving DecidableEq

namespace Task

def takes : Task → Option Grant
  | .pause e .. | .finish (.worldStopped e) => some (.world e)
  | .adopt e _ => some (.badge e)
  | .forget => some .exit
  | _ => none

def gives : Task → Option Grant
  | .registry e (.stopWorld _) | .registry e (.awaitStops _) => some (.world e)
  | .registry e (.attach _) => some (.badge e)
  | .registry _ (.detach _) => some .exit
  | _ => none

end Task

/-- A change of a record that only its thread and those who interrupt it see. -/
structure Mutator.Amends (m m' : Mutator) : Prop where
  id : m'.id = m.id
  status : m'.status = m.status
  suspendCount : m'.suspendCount = m.suspendCount
  pollRequested : m'.pollRequested = m.pollRequested

/-- What a thread does to its own station; there are `n` engines.  With `F`, whoever stops a world
names itself as initiator, or nobody if it is not attached; without, it may name anybody. -/
inductive Station.Alters (F : Prop) (n : Nat) (x : Station) : Station → Prop
  | push {tasks : List Task}
      (h : tasks.all Task.isOrdinary = true) : Alters F n x { x with tasks := tasks ++ x.tasks }
  | answer (r : Reply) : Alters F n x { x with reply := r }
  /-- A pause begins. -/
  | stop {e : Nat} {i : Option ThreadId} {last : Task} (he : e < n)
      (hi : F → i = Badge.idIn x.badge e) (hlast : last.takes = some (.world e)) :
      Alters F n x { x with tasks := .registry e (.stopWorld i) :: last :: x.tasks }
  /-- The stretch passes its pause on to the task that ends it. -/
  | release {e : Nat} {rest : List Nat} {tasks : List Task} (h : x.worlds = e :: rest)
      (htasks : tasks.all Task.isOrdinary = true) :
      Alters F n x { x with
        worlds := rest, tasks := .registry e .releaseWorld :: (tasks ++ x.tasks) }
  | attach {e : Nat} {name : String} {foreign : Bool} (he : e < n) (hbadge : x.badge = none)
      (htasks : x.tasks.all Task.isOrdinary = true) :
      Alters F n x { x with tasks := .registry e (.attach name) :: .adopt e foreign :: x.tasks }
  | detach {b : Badge} (hbadge : x.badge = some b) (htasks : x.tasks.all Task.isOrdinary = true) :
      Alters F n x { x with tasks := .registry b.engine (.detach b.id) :: .forget :: x.tasks }

/-- One thing that a thread does. -/
inductive Shift (F : Prop) (t : Nat) : Yard → Yard → Prop
  | station {y : Yard} {x x' : Station} (hx : y.stations[t]? = some x)
      (h : x.Alters F y.registries.size x') : Shift F t y (y.modify t fun _ => x')
  | amend {y : Yard} (e : Nat) {id : ThreadId} {f : Mutator → Mutator}
      (h : ∀ m : Mutator, m.Amends (f m)) : Shift F t y (y.modifyRegistry e (·.update id f))
  | openRegistry {y : Yard} (ms : Option Nat) :
      Shift F t y { y with registries := y.registries.push { timeout := ms } }
  | recruit {y : Yard} (e : Nat) :
      Shift F t y { y with stations := y.stations.push ⟨none, [], [.serve e], .unit⟩ }

namespace Station

variable {F : Prop} {n : Nat} {x x' x₁ : Station}

/-- Several of these things, one after the other. -/
abbrev Rearranges (F : Prop) (n : Nat) : Station → Station → Prop :=
  Relation.ReflTransGen (Alters F n)

theorem Rearranges.push {tasks : List Task} (h : Rearranges F n x x₁)
    (htasks : tasks.all Task.isOrdinary = true) :
    Rearranges F n x { x₁ with tasks := tasks ++ x₁.tasks } := h.tail (.push htasks)

theorem Rearranges.answer (h : Rearranges F n x x₁) (r : Reply) :
    Rearranges F n x { x₁ with reply := r } := h.tail (.answer r)

end Station

/-- A thread brings a world to another one by shifts. -/
abbrev Shifts (F : Prop) (t : Nat) : Yard → Yard → Prop := Relation.ReflTransGen (Shift F t)

section Shifting

variable {F : Prop} {t : Nat} {y : Yard}

theorem shifts_station {x x' : Station} (hx : y.stations[t]? = some x)
    (h : Station.Rearranges F y.registries.size x x') : Shifts F t y (y.modify t fun _ => x') := by
  induction h with
  | refl =>
    rw [Yard.modify, modify_eq_self fun z hz => Option.some.inj (hx.symm.trans hz)]
  | @tail x₁ x' _ alters ih =>
    have hx₁ : (y.modify t fun _ => x₁).stations[t]? = some x₁ := by
      rw [Yard.modify, Array.getElem?_modify, if_pos rfl, hx]
      rfl
    have hlast : Shift F t (y.modify t fun _ => x₁) ((y.modify t fun _ => x₁).modify t fun _ =>
          x') := .station hx₁ alters
    have htwice : (y.modify t fun _ => x₁).modify t (fun _ => x') = y.modify t fun _ => x' := by
      unfold Yard.modify
      rw [modify_modify]
    rw [htwice] at hlast
    exact ih.tail hlast

theorem shifts_opens (made : List Registry) (hmade : ∀ r ∈ made, ∃ ms, r = { timeout := ms }) :
    Shifts F t y { y with registries := y.registries ++ made.toArray } := by
  induction made generalizing y with
  | nil => simpa using .refl
  | cons r rest ih =>
    obtain ⟨ms, rfl⟩ := hmade r List.mem_cons_self
    have hrest := ih (y := { y with registries := y.registries.push { timeout := ms } })
      fun r hr => hmade r (List.mem_cons_of_mem _ hr)
    refine .head (.openRegistry ms) ?_
    simpa using hrest

theorem shifts_recruits (hired : List Actor)
    (hhired : ∀ z ∈ hired, ∃ e, z = ⟨none, [], [.serve e], .unit⟩) :
    Shifts F t y { y with stations := y.stations ++ hired.toArray.map Actor.station } := by
  induction hired generalizing y with
  | nil => simpa using .refl
  | cons z rest ih =>
    obtain ⟨e, rfl⟩ := hhired z List.mem_cons_self
    have hrest := ih (y := { y with stations := y.stations.push ⟨none, [], [.serve e], .unit⟩ })
      fun z hz => hhired z (List.mem_cons_of_mem _ hz)
    refine .head (.recruit e) ?_
    simpa [Actor.station, Actor.badge] using hrest

end Shifting

namespace Actor

variable {F : Prop} {n : Nat} {x x' : Actor} {task : Task}

theorem Goes.rearranges (h : x.Goes n task x')
    (htask : task.isOrdinary = true ∨ (∃ i, task = .perform i) ∧ x.tasks = [])
    (hstop : ∀ label i, task ≠ .perform (.stopWorld label i)) :
    Station.Rearranges F n x.station x'.station := by
  cases h with
  | @goesOn a _ front _ hfront =>
    have hpushed := Station.Rearranges.push (F := F) (n := n) (x := x.station) .refl
        (isOrdinary_of_isCommon hfront)
    cases a with
    | none => exact hpushed
    | some r => exact hpushed.answer r
  | @begins e reason cycle front he hfront =>
    have hbegun : Station.Rearranges F n x.station
        { x.station with
          tasks := .registry e (.stopWorld (x.idIn e)) :: .pause e cycle reason :: x.tasks } :=
      .single (.stop he (fun _ => (x.idIn_badge e).symm) rfl)
    have hpushed := hbegun.push (isOrdinary_of_isCommon hfront)
    simpa [Actor.station, Actor.push, Actor.badge] using hpushed
  | stops => exact (hstop _ _ rfl).elim
  | pauses => simp [Task.isOrdinary] at htask
  | fails hno hworld =>
    rcases htask with hyes | ⟨⟨i, rfl⟩, -⟩
    · cases hno.symm.trans hyes
    · simp at hworld
  | stands hworld =>
    rcases hworld with rfl | ⟨_, rfl⟩ <;> simp [Task.isOrdinary, Finish.isOrdinary] at htask
  | releases hworlds hfront => exact .single (.release hworlds (isOrdinary_of_isCommon hfront))

end Actor

namespace Crew

variable {F : Prop} {c c' : Crew} {t : Nat} {x : Actor} {task : Task}

theorem shifts_extends {made : Array Registry} {hired : Array Actor}
    (hmade : ∀ r ∈ made, ∃ ms, r = { timeout := ms })
    (hhired : ∀ z ∈ hired, ∃ e, z = ⟨none, [], [.serve e], .unit⟩) : Shifts F t c.yard
    (yard { c with registries := c.registries ++ made, actors := c.actors ++ hired }) := by
  have hopened :=
    shifts_opens (F := F) (t := t) (y := c.yard) made.toList fun r hr => hmade r (by simpa using hr)
  refine hopened.trans ?_
  have hrecruited :=
    shifts_recruits (F := F) (t := t) (y := { c.yard with registries := c.yard.registries ++
        made.toList.toArray }) hired.toList fun z hz => hhired z (by simpa using hz)
  simpa [yard] using hrecruited

/-- **Ordinary tasks and instructions go on by shifts.**  Sections of registries are left out, and
so is an instruction that stops a world and may name another initiator. -/
theorem Act.shifts (h : Act t x c task c') (hx : c.actors[t]? = some x)
    (htask : task.isOrdinary = true ∨ (∃ i, task = .perform i) ∧ x.tasks = [])
    (hregistry : ∀ e op, task ≠ .registry e op)
    (hstop : ∀ label i, task ≠ .perform (.stopWorld label i)) : Shifts F t c.yard c'.yard := by
  have alters : ∀ {k : Crew} {f}, k.actors[t]? = some x →
      Station.Rearranges F k.registries.size x.station (f x).station →
      Shifts F t k.yard (k.modify t f).yard := by
    intro k f hk halters
    rw [yard_modify hk rfl]
    exact shifts_station (stations_yard hk) halters
  have pushes : ∀ {k : Crew} {front}, k.actors[t]? = some x → front.all Task.isOrdinary = true →
      Shifts F t k.yard (k.modify t (Actor.push front)).yard :=
    fun hk hfront => alters hk (Station.Rearranges.push .refl hfront)
  have amends : ∀ {k : Crew} {e id f}, (∀ m : Mutator, m.Amends (f m)) →
      Shifts F t k.yard (k.modifyRegistry e (·.update id f)).yard := fun hf => .single (.amend _ hf)
  have hempty : ∀ {i}, task = .perform i → x.tasks = [] := by
    rintro i rfl
    rcases htask with hno | ⟨-, hempty⟩
    · cases hno
    · exact hempty
  cases h with
  | idles haside hgoes =>
    exact alters hx (hgoes.rearranges htask hstop)
  | operates | misses => exact (hregistry _ _ rfl).elim
  | polls _ _ _ _ hfront =>
    exact pushes hx (by rw [List.all_cons, Actor.isOrdinary_of_isCommon hfront]; rfl)
  | @blocks a hold body ha =>
    have hbody : body.isOrdinary = true := by simpa [Task.isOrdinary] using htask
    refine alters hx (.single ?_)
    have hall : List.all [.registry a.engine (.enterBlocking a.id), body,
          .registry a.engine (.leaveBlocking a.id hold), .endRegion] Task.isOrdinary = true := by
      simp [hbody]
    have hpushed := Station.Alters.push (F := F) (n := c.registries.size) (x := x.station) hall
    rwa [← @Actor.station_setRegion x true] at hpushed ⊢
  | @nests hold body =>
    have hbody : body.isOrdinary = true := by simpa [Task.isOrdinary] using htask
    exact pushes hx (by simp [hbody])
  | @enters a _ front ha hout hfront =>
    refine alters hx (.single ?_)
    have hall :
        List.all (.registry a.engine (.enterBlocking a.id) :: front) Task.isOrdinary = true := by
      simpa using Actor.isOrdinary_of_isCommon hfront
    have hpushed := Station.Alters.push (F := F) (n := c.registries.size) (x := x.station) hall
    rwa [← @Actor.station_setRegion x true] at hpushed ⊢
  | leaves _ hfront =>
    exact pushes hx (by rw [List.all_cons, List.all_cons, Actor.isOrdinary_of_isCommon hfront]; rfl)
  | ends =>
    refine alters hx ?_
    rw [Actor.station_setRegion]
  | @joins e _ name foreign front he ha hfront =>
    have hbegun := Station.Rearranges.push (F := F) (n := c.registries.size) (x := x.station) .refl
      (Actor.isOrdinary_of_isCommon hfront)
    refine alters hx (hbegun.tail (.attach ?_ ?_ ?_))
    · exact (Array.getElem?_eq_some_iff.mp (Option.isSome_iff_exists.mp he).choose_spec).1
    · show x.badge = none
      rw [Actor.badge, ha]
      rfl
    · show (front ++ x.tasks).all Task.isOrdinary = true
      rw [hempty rfl, List.append_nil]
      exact Actor.isOrdinary_of_isCommon hfront
  | @quits a _ r front ha hfront =>
    have hbegun := Station.Rearranges.push (F := F) (n := c.registries.size) (x := x.station) .refl
      (Actor.isOrdinary_of_isCommon hfront)
    refine alters hx
      (Station.Rearranges.answer (hbegun.tail (.detach (Actor.badge_of_attachment ha) ?_)) r)
    show (front ++ x.tasks).all Task.isOrdinary = true
    rw [hempty rfl, List.append_nil]
    exact Actor.isOrdinary_of_isCommon hfront
  | adopts | stays | forgets => simp [Task.isOrdinary] at htask
  | interrupts =>
    refine (amends (f := fun m => { m with interrupted := true }) fun _ =>
      ⟨rfl, rfl, rfl, rfl⟩).trans (alters hx ?_)
    exact (Station.Rearranges.answer .refl .unit).push rfl
  | finds | waits => exact pushes hx rfl
  | passes | wakes | enqueues | recordsNothing => exact .refl
  | takes | takesEntry | sleeps => exact pushes (k := c.modifyStand _ _) hx rfl
  | recordsBlocker | clearsFlag => exact amends fun _ => ⟨rfl, rfl, rfl, rfl⟩
  | breaksOff =>
    exact (amends (k := c.modifyStand _ _) (f := fun m => { m with interrupted := false }) fun _ =>
      ⟨rfl, rfl, rfl, rfl⟩).trans (alters (k := (c.modifyStand _ _).modifyRegistry _ _) hx
      (Station.Rearranges.answer .refl _))
  | timesOut => exact alters (k := c.modifyStand _ _) hx (Station.Rearranges.answer .refl _)
  | opens hmade hhired hfront =>
    refine (shifts_extends hmade hhired).trans (pushes ?_ (Actor.isOrdinary_of_isCommon hfront))
    show (c.actors ++ _)[t]? = some x
    rw [Array.getElem?_append_left (Array.getElem?_eq_some_iff.mp hx).1]
    exact hx

end Crew

end ManagedHeap
