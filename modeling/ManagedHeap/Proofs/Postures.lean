import ManagedHeap.Proofs.ThreadSteps
import ManagedHeap.Proofs.Polling

/-!
# Postures

**Input.**  A run, and a thread in it.

**Algorithm.**  The tasks with which a thread attaches, polls, blocks and waits come in a fixed
order, and nothing but free tasks stands between them.  A registry gives every number to one thread,
which keeps it until it detaches.

**Results.**  `Posture` is that order.  `Crew.Lawful`: every thread is in a posture, makes calls
under its own number only, and shares that number with nobody (`World.crew_lawful_after`).
-/

namespace ManagedHeap

variable {e : Nat}

/-- What may stand behind the next task of a thread under a number. -/
inductive Behind (b : Option Badge) : List Task → Prop
  | nil : Behind b []
  | free {task : Task} {rest : List Task} (htask : task.isFree = true)
      (h : Behind b rest) : Behind b (task :: rest)
  | unblocks {rest : List Task} (h : Behind b rest) : Behind b (.setBlocker none :: rest)
  | leaves {e : Nat} {id : ThreadId} {hold : Hold} {rest : List Task} (hb : b = some ⟨e, id⟩)
      (h : Behind b rest) : Behind b (.registry e (.leaveBlocking id hold) :: .endRegion :: rest)

/-- What stands behind the section that leaves a region. -/
def Ending (b : Option Badge) (tasks : List Task) : Prop :=
  ∃ rest, tasks = .endRegion :: rest ∧ Behind b rest

def Posture (b : Option Badge) : List Task → Prop
  | [] => True
  | .registry e (.poll id) :: rest | .registry e (.enterBlocking id) :: rest =>
    b = some ⟨e, id⟩ ∧ Behind b rest
  | .registry e (.leaveBlocking id _) :: rest => b = some ⟨e, id⟩ ∧ Ending b rest
  | .registry e (.parked id _) :: rest => b = some ⟨e, id⟩ ∧ (Behind b rest ∨ Ending b rest)
  | .registry e (.attach _) :: rest =>
    b = none ∧ ∃ foreign tail, rest = .adopt e foreign :: tail ∧ tail.all Task.isFree = true
  | .registry e (.detach id) :: rest =>
    b = some ⟨e, id⟩ ∧ ∃ tail, rest = .forget :: tail ∧ tail.all Task.isFree = true
  | .adopt .. :: rest => b = none ∧ rest.all Task.isFree = true
  | .forget :: rest => rest.all Task.isFree = true
  | .setBlocker (some q) :: rest =>
    ∃ ms tail, rest = .awaitEntry q ms :: .setBlocker none :: tail ∧ Behind b tail
  | .awaitEntry .. :: rest => ∃ tail, rest = .setBlocker none :: tail ∧ Behind b tail
  | .setBlocker none :: rest | .endRegion :: rest => Behind b rest
  | .wakeBlocked .. :: rest | .wakeQueue _ :: rest => Behind b rest
  | .perform _ :: rest => rest = []
  | task :: rest => task.isFree = true ∧ Behind b rest

namespace Behind

variable {b : Option Badge} {tasks rest : List Task}

theorem of_free (h : tasks.all Task.isFree = true) : Behind b tasks := by
  induction tasks with
  | nil => exact .nil
  | cons task rest ih =>
    rw [List.all_cons, Bool.and_eq_true] at h
    exact .free h.1 (ih h.2)

theorem append (hfront : front.all Task.isFree = true) (h : Behind b rest) :
    Behind b (front ++ rest) := by
  induction front with
  | nil => exact h
  | cons task front ih =>
    rw [List.all_cons, Bool.and_eq_true] at hfront
    exact .free hfront.1 (ih hfront.2)

end Behind

namespace Posture

variable {b : Option Badge} {tasks rest : List Task} {task : Task}

theorem behind_of_free (h : Posture b (task :: rest)) (hfree : task.isFree = true) :
    Behind b rest := by
  cases task with
  | registry e op =>
    cases op with
    | poll | enterBlocking | leaveBlocking | parked | attach | detach => cases hfree
    | _ => exact h.2
  | endRegion | adopt | forget | perform | setBlocker | awaitEntry | wakeBlocked | wakeQueue =>
    cases hfree
  | _ => exact h.2

theorem of_free (hfree : task.isFree = true) (h : Behind b rest) : Posture b (task :: rest) := by
  cases task with
  | registry e op =>
    cases op with
    | poll | enterBlocking | leaveBlocking | parked | attach | detach => cases hfree
    | _ => exact ⟨hfree, h⟩
  | endRegion | adopt | forget | perform | setBlocker | awaitEntry | wakeBlocked | wakeQueue =>
    cases hfree
  | _ => exact ⟨hfree, h⟩

/-- Tasks that keep a thread where it is have free tasks and the ends of regions behind them. -/
theorem behind_of_idle (h : Posture b (task :: rest))
    (htask : task.isAside = true ∨ ∃ i, task = .perform i) : Behind b rest := by
  rcases htask with haside | ⟨i, rfl⟩
  · exact h.behind_of_free (Task.isFree_of_isAside haside)
  · cases (show rest = [] from h)
    exact .nil

theorem behind_of_look (h : Posture b (.awaitEntry q ms :: rest)) : Behind b rest := by
  obtain ⟨tail, rfl, htail⟩ := h
  exact .unblocks htail

theorem of_behind (h : Behind b tasks) : Posture b tasks := by
  cases h with
  | nil => trivial
  | free hfree h => exact of_free hfree h
  | unblocks h => exact h
  | leaves hb h => exact ⟨hb, _, rfl, h⟩

end Posture

namespace Actor

variable {x x' : Actor}

@[simp]
theorem badge_push {tasks : List Task} : (x.push tasks).badge = x.badge := rfl

@[simp]
theorem badge_goOn : (x.goOn e p).badge = x.badge := by
  cases p <;> rfl

end Actor

theorem Mutator.of_masked {m m' : Mutator} (h : m'.masked = m.masked) :
    m'.id = m.id ∧ m'.status = m.status ∧ m'.suspendCount = m.suspendCount ∧
    m'.pollRequested = m.pollRequested := by
  unfold masked at h
  simp only [mk.injEq] at h
  exact ⟨h.1, h.2.2.1, h.2.2.2.1, h.2.2.2.2.1⟩

namespace Crew

variable {c c' : Crew} {t : Nat} {x x' : Actor} {task : Task} {r : Registry} {y : Actor}

/-- What a thread did before it looks at a queue, polls or is parked. -/
def Leads (c : Crew) (task : Task) : List Task → Prop
  | .awaitEntry q ms :: _ => task = .setBlocker (some q) ∨ task = .awaitEntry q ms
  | .registry e (.poll id) :: _ => ∃ m, c.record e id = some m ∧ m.pollRequested = true
  | .registry e (.parked id hold) :: rest =>
    task = .registry e (.poll id) ∧ hold = .any ∧ Behind (some ⟨e, id⟩) rest ∨
      task = .registry e (.leaveBlocking id hold) ∧ Ending (some ⟨e, id⟩) rest ∨
      task = .registry e (.parked id hold)
  | _ => True

/-- The posture of a thread after a task. -/
structure Stands (c : Crew) (task : Task) (b : Option Badge) (tasks : List Task) : Prop where
  posture : Posture b tasks
  leads : c.Leads task tasks

namespace Stands

variable {b : Option Badge} {tasks : List Task}

theorem of_behind (h : Behind b tasks) : c.Stands task b tasks := by
  refine ⟨.of_behind h, ?_⟩
  cases h with
  | nil | unblocks | leaves => trivial
  | @free next rest hfree =>
    cases next with
    | registry e op => cases op <;> trivial
    | awaitEntry => cases hfree
    | _ => trivial

theorem of_ending (h : Ending b tasks) : c.Stands task b tasks := by
  obtain ⟨rest, rfl, hrest⟩ := h
  exact ⟨hrest, trivial⟩

theorem of_recorded (h : Posture b (.setBlocker q :: tasks)) :
    c.Stands (.setBlocker q) b tasks := by
  cases q with
  | none => exact .of_behind h
  | some q =>
    obtain ⟨ms, tail, rfl, htail⟩ := h
    exact ⟨⟨tail, rfl, htail⟩, .inl rfl⟩

end Stands

theorem stands_goOn (h : r.Section t op r' p) (hp : Posture x.badge (.registry e op :: x.tasks)) :
    c.Stands (.registry e op) (x.goOn e p).badge (x.goOn e p).tasks := by
  rw [Actor.badge_goOn]
  cases h with
  | comesIn => exact ⟨⟨hp.1, .inl hp.2⟩, .inl ⟨rfl, rfl, hp.1 ▸ hp.2⟩⟩
  | stays => exact ⟨⟨hp.1, .inr hp.2⟩, .inr (.inl ⟨rfl, hp.1 ▸ hp.2⟩)⟩
  | sleepsOn => exact ⟨hp, .inr (.inr rfl)⟩
  | waits | waitsOn => exact ⟨hp, trivial⟩
  | asks => exact ⟨⟨rfl, hp.2⟩, trivial⟩
  | leaves => exact .of_ending hp.2
  | goesOn => exact hp.2.elim .of_behind .of_ending
  | misses hop => rcases hop with rfl | rfl <;> exact .of_behind hp.2
  | looks hlook =>
    rcases hlook with ⟨v, rfl⟩ | rfl
    · exact .of_behind hp.2
    · exact ⟨hp, trivial⟩
  | attaches =>
    obtain ⟨hb, foreign, tail, htasks, hfree⟩ := hp
    show c.Stands _ x.badge x.tasks
    rw [htasks]
    exact ⟨⟨hb, hfree⟩, trivial⟩
  | detaches =>
    obtain ⟨-, tail, htasks, hfree⟩ := hp
    show c.Stands _ x.badge x.tasks
    rw [htasks]
    exact ⟨hfree, trivial⟩
  | _ => exact .of_behind hp.2

theorem Act.stands (h : Act t x c task c') (hx : c.actors[t]? = some x)
    (hp : Posture x.badge (task :: x.tasks)) :
    ∃ x', c'.actors[t]? = some x' ∧ c.Stands task x'.badge x'.tasks := by
  cases h with
  | @idles x' task htask hgoes =>
    obtain ⟨front, hfront, htasks, hattachment⟩ := hgoes.front
    refine ⟨x', getElem?_modify_self hx, .of_behind ?_⟩
    rw [htasks, Actor.badge, hattachment]
    exact .append hfront (hp.behind_of_idle htask)
  | operates hr hstep =>
    exact ⟨_, getElem?_modify_self hx, stands_goOn (Registry.section_of_step hstep) hp⟩
  | @misses e op hr =>
    refine ⟨x, hx, ?_⟩
    cases op with
    | poll | enterBlocking => exact .of_behind hp.2
    | leaveBlocking => exact .of_ending hp.2
    | parked => exact hp.2.elim .of_behind .of_ending
    | attach name =>
      obtain ⟨hb, foreign, tail, htasks, hfree⟩ := hp
      rw [htasks]
      exact ⟨⟨hb, hfree⟩, trivial⟩
    | detach =>
      obtain ⟨-, tail, htasks, hfree⟩ := hp
      rw [htasks]
      exact ⟨hfree, trivial⟩
    | _ => exact .of_behind hp.2
  | polls htask ha hm hflag hfront =>
    refine ⟨_, getElem?_modify_self hx, ⟨Actor.badge_of_attachment ha, ?_⟩, _, hm, hflag⟩
    exact .append (Actor.isFree_of_isCommon hfront) (hp.behind_of_idle htask)
  | blocks ha hout =>
    have hbadge := Actor.badge_of_attachment ha
    refine ⟨_, getElem?_modify_self hx, ?_, trivial⟩
    rw [Actor.badge_push, Actor.badge_setRegion]
    exact ⟨hbadge, .free hp.1 (.leaves hbadge hp.2)⟩
  | nests => exact ⟨_, getElem?_modify_self hx, .of_behind (.free hp.1 hp.2)⟩
  | enters ha hout hfront =>
    refine ⟨_, getElem?_modify_self hx, ?_, trivial⟩
    rw [Actor.badge_push, Actor.badge_setRegion]
    exact ⟨Actor.badge_of_attachment ha,
      .append (Actor.isFree_of_isCommon hfront) (hp.behind_of_idle (.inr ⟨_, rfl⟩))⟩
  | leaves ha hfront =>
    refine ⟨_, getElem?_modify_self hx, ⟨Actor.badge_of_attachment ha, _, rfl, ?_⟩, trivial⟩
    exact .append (Actor.isFree_of_isCommon hfront) (hp.behind_of_idle (.inr ⟨_, rfl⟩))
  | ends =>
    refine ⟨_, getElem?_modify_self hx, ?_⟩
    rw [Actor.badge_setRegion]
    exact .of_behind hp
  | @joins e i name foreign front he ha hfront =>
    have htail : x.tasks = [] := hp
    refine ⟨_, getElem?_modify_self hx, ⟨?_, foreign, front, ?_, Actor.isFree_of_isCommon hfront⟩,
      trivial⟩
    · rw [Actor.badge_push, Actor.badge, ha]
      rfl
    · simp [htail]
  | adopts hreply => exact ⟨_, getElem?_modify_self hx, .of_behind (.free rfl (.of_free hp.2))⟩
  | stays => exact ⟨x, hx, .of_behind (.of_free hp.2)⟩
  | @quits a i r front ha hfront =>
    have htail : x.tasks = [] := hp
    refine ⟨_, getElem?_modify_self hx,
      ⟨Actor.badge_of_attachment ha, front, ?_, Actor.isFree_of_isCommon hfront⟩, trivial⟩
    simp [htail]
  | forgets => exact ⟨_, getElem?_modify_self hx, .of_behind (.of_free hp)⟩
  | interrupts hm => exact ⟨_, getElem?_modify_self hx, hp.behind_of_free rfl, trivial⟩
  | finds hq => exact ⟨_, getElem?_modify_self hx, hp, trivial⟩
  | passes | wakes => exact ⟨x, hx, .of_behind hp⟩
  | enqueues => exact ⟨x, hx, .of_behind hp.2⟩
  | takes hq => exact ⟨_, getElem?_modify_self hx, .of_behind (.free rfl hp.2)⟩
  | waits => exact ⟨_, getElem?_modify_self hx, ⟨_, _, rfl, hp.2⟩, trivial⟩
  | recordsBlocker | recordsNothing => exact ⟨x, hx, .of_recorded hp⟩
  | takesEntry hq => exact ⟨_, getElem?_modify_self hx, .of_behind (.free rfl hp.behind_of_look)⟩
  | breaksOff | timesOut => exact ⟨_, getElem?_modify_self hx, .of_behind hp.behind_of_look⟩
  | sleeps hq hflag => exact ⟨_, getElem?_modify_self hx, hp, .inr rfl⟩
  | clearsFlag ha => exact ⟨x, hx, .of_behind (hp.behind_of_idle (.inr ⟨_, rfl⟩))⟩
  | @opens i made hired front hmade hhired hfront =>
    have hlonger : (c.actors ++ hired)[t]? = some x := by
      rw [Array.getElem?_append_left (Array.getElem?_eq_some_iff.mp hx).1]
      exact hx
    exact ⟨_, getElem?_modify_self hlonger,
      .of_behind (.append (Actor.isFree_of_isCommon hfront) (hp.behind_of_idle (.inr ⟨_, rfl⟩)))⟩

section Effects

theorem getElem?_modifyRegistry_self (hr : c.registries[e]? = some r) :
    (c.modifyRegistry e f).registries[e]? = some (f r) := by
  unfold modifyRegistry
  rw [Array.getElem?_modify, if_pos rfl, hr]
  rfl

/-- What a task of a thread may do to the registry of an engine. -/
inductive Alters (t : Nat) (task : Task) (e : Nat) (r : Registry) : Registry → Prop
  | nothing (htask : ∀ op, task ≠ .registry e op) : Alters t task e r r
  | call {op : Operation} {expired : Bool} {r' : Registry}
      {p : Progress} (htask : task = .registry e op)
      (h : r.step t expired op = some (r', p)) : Alters t task e r r'
  /-- A note in the record of a thread that interrupts leave or look for. -/
  | note {id : ThreadId} {f : Mutator → Mutator} (htask : ∀ op, task ≠ .registry e op)
      (hf : ∀ m : Mutator, (f m).masked = m.masked) : Alters t task e r (r.update id f)

theorem Act.getElem?_of_ne (h : Act t x c task c') (hj : j ≠ t) : c'.actors[j]? = c.actors[j]? ∨
    c.actors[j]? = none ∧ ∃ e, c'.actors[j]? = some ⟨none, [], [.serve e], .unit⟩ := by
  cases h with
  | misses | stays | passes | wakes | enqueues | recordsBlocker | recordsNothing | clearsFlag =>
    exact .inl rfl
  | @opens i made hired front hmade hhired hfront =>
    rw [getElem?_modify_of_ne hj]
    show (c.actors ++ hired)[j]? = _ ∨ _ ∧ ∃ e, (c.actors ++ hired)[j]? = _
    rcases Nat.lt_or_ge j c.actors.size with hlt | hge
    · exact .inl (Array.getElem?_append_left hlt)
    · rw [Array.getElem?_append_right hge, Array.getElem?_eq_none hge]
      cases hy : hired[j - c.actors.size]? with
      | none => exact .inl rfl
      | some y =>
        obtain ⟨e, rfl⟩ := hhired y (Array.mem_of_getElem? hy)
        exact .inr ⟨rfl, e, rfl⟩
  | _ => exact .inl (getElem?_modify_of_ne hj)

theorem Act.getElem?_of_other (h : Act t x (c.modify t f) task c') (hu : u ≠ t)
    (hy : c.actors[u]? = some y) : c'.actors[u]? = some y := by
  rcases h.getElem?_of_ne hu with hsame | ⟨hnone, -⟩
  · rw [hsame, getElem?_modify_of_ne hu, hy]
  · rw [getElem?_modify_of_ne hu, hy] at hnone
    cases hnone

theorem Act.of_other (h : Act t x (c.modify t f) task c') (hu : u ≠ t)
    (hy : c'.actors[u]? = some y) : c.actors[u]? = some y ∨
    ∃ e, y = ⟨none, [], [.serve e], .unit⟩ := by
  rcases h.getElem?_of_ne hu with hsame | ⟨-, e, hnew⟩
  · rw [hsame, getElem?_modify_of_ne hu] at hy
    exact .inl hy
  · cases hnew.symm.trans hy
    exact .inr ⟨e, rfl⟩

theorem alters_modifyRegistry (hr : c.registries[e]? = some r)
    (hf : e' = e → Alters t task e r (f r)) (htask : e' ≠ e → ∀ op, task ≠ .registry e op) :
    ∃ r', (c.modifyRegistry e' f).registries[e]? = some r' ∧ Alters t task e r r' := by
  unfold modifyRegistry
  rw [Array.getElem?_modify]
  by_cases he : e' = e
  · rw [if_pos he, hr]
    exact ⟨_, rfl, hf he⟩
  · rw [if_neg he]
    exact ⟨r, hr, .nothing (htask he)⟩

theorem Act.exists_registry (h : Act t x c task c') (hr : c.registries[e]? = some r) :
    ∃ r', c'.registries[e]? = some r' ∧ Alters t task e r r' := by
  cases h with
  | operates hr₁ hstep =>
    refine alters_modifyRegistry hr (fun he => ?_) fun he op hop => ?_
    · subst he
      cases hr₁.symm.trans hr
      exact .call rfl hstep
    · cases hop
      exact he rfl
  | misses hr₁ =>
    refine ⟨r, hr, .nothing fun op hop => ?_⟩
    cases hop
    cases hr₁.symm.trans hr
  | idles htask | polls htask =>
    refine ⟨r, hr, .nothing ?_⟩
    rintro op rfl
    rcases htask with haside | ⟨i, hi⟩
    · cases haside
    · cases hi
  | interrupts | recordsBlocker | breaksOff | clearsFlag =>
    exact alters_modifyRegistry hr (fun _ => .note nofun fun _ => rfl) fun _ => nofun
  | opens =>
    refine ⟨r, ?_, .nothing nofun⟩
    show (c.registries ++ _)[e]? = some r
    rw [Array.getElem?_append_left (Array.getElem?_eq_some_iff.mp hr).1]
    exact hr
  | _ => exact ⟨r, hr, .nothing nofun⟩

theorem Act.of_registry (h : Act t x c (.registry e op) c') (hr : c.registries[e]? = some r) :
    ∃ expired r' p, r.step t expired op = some (r', p) ∧
      c' = (c.modifyRegistry e fun _ => r').modify t (Actor.goOn e p) := by
  cases h with
  | operates hr₁ hstep =>
    cases hr₁.symm.trans hr
    exact ⟨_, _, _, hstep, rfl⟩
  | misses hr₁ => cases hr₁.symm.trans hr
  | idles htask | polls htask => rcases htask with h | ⟨i, h⟩ <;> cases h

theorem Act.isFresh_registry (h : Act t x c task c') (hr : c.registries[e]? = none)
    (hr' : c'.registries[e]? = some r) : r.mutators = [] ∧ r.asleep = [] := by
  have hnone : ∀ {e' f}, (c.modifyRegistry e' f).registries[e]? = none := by
    intro e' f
    unfold modifyRegistry
    rw [Array.getElem?_modify, hr]
    split <;> rfl
  cases h with
  | operates | interrupts | recordsBlocker | breaksOff | clearsFlag => cases hnone.symm.trans hr'
  | @opens i made hired front hmade =>
    have hge : c.registries.size ≤ e := Array.getElem?_eq_none_iff.mp hr
    have hmade' : made[e - c.registries.size]? = some r := by
      rw [← hr']
      exact (Array.getElem?_append_right hge).symm
    obtain ⟨ms, rfl⟩ := hmade r (Array.mem_of_getElem? hmade')
    exact ⟨rfl, rfl⟩
  | _ => cases hr.symm.trans hr'

end Effects

section Laws

variable {m : Move}

def Postured (c : Crew) : Prop :=
  ∀ {t : Nat} {x : Actor}, c.actors[t]? = some x → Posture x.badge x.tasks

theorem Turn.getElem?_of_busy (h : Turn m c c') (hm : m ≠ .step t) (hx : c.actors[t]? = some x)
    (hbusy : x.tasks ≠ []) : c'.actors[t]? = some x := by
  cases h with
  | rests | waits | favours => exact hx
  | comes =>
    show (c.actors.push _)[t]? = some x
    rw [Array.getElem?_push, if_neg (Array.getElem?_eq_some_iff.mp hx).1.ne, hx]
  | @begins _ u _ _ _ _ hy hidle =>
    refine (getElem?_modify_of_ne ?_).trans hx
    rintro rfl
    cases hx.symm.trans hy
    exact hbusy hidle
  | @acts _ _ u _ _ _ _ _ hact => exact hact.getElem?_of_other (fun heq => hm (by rw [heq])) hx

/-- Whoever is there after somebody else's move was there before, has nothing to do, or is about to
begin. -/
theorem Turn.getElem?_of_idle (h : Turn m c c')
    (hm : ∀ t, m ≠ .step t) (hy : c'.actors[t]? = some y) :
    c.actors[t]? = some y ∨ y.tasks = [] ∨ ∃ i, y.tasks = [.perform i] := by
  cases h with
  | rests | favours => exact .inl hy
  | waits | acts => exact (hm _ rfl).elim
  | comes =>
    rw [Array.getElem?_push] at hy
    split at hy
    · cases hy
      exact .inr (.inl rfl)
    · exact .inl hy
  | @begins _ u _ _ i x hx =>
    by_cases hu : t = u
    · subst hu
      cases (getElem?_modify_self hx).symm.trans hy
      exact .inr (.inr ⟨i, rfl⟩)
    · rw [getElem?_modify_of_ne hu] at hy
      exact .inl hy

/-- Nobody is attached yet, and nobody waits. -/
structure IsFresh (c : Crew) : Prop where
  actors : ∀ {t : Nat} {x : Actor}, c.actors[t]? = some x → ∃ e, x = ⟨none, [], [.serve e], .unit⟩
  registries : ∀ {e : Nat} {r : Registry}, c.registries[e]? = some r →
    r.mutators = [] ∧ r.asleep = []
  stand : ∀ q, c.stand q = ⟨[], []⟩

theorem posture_serve (e : Nat) : Posture none [.serve e] := ⟨rfl, .nil⟩

theorem IsFresh.postured (h : c.IsFresh) : c.Postured := fun hx => by
  obtain ⟨e, rfl⟩ := h.actors hx
  exact posture_serve e

/-- **Every move keeps everybody in a posture.** -/
theorem Postured.turn (h : c.Postured) (hturn : Turn m c c') : c'.Postured := by
  intro u y hy
  have hidle := hturn.getElem?_of_idle (y := y) (t := u)
  cases hturn with
  | rests | waits | favours => exact h hy
  | comes | begins =>
    rcases hidle nofun hy with hy | hnone | ⟨i, hi⟩
    · exact h hy
    · rw [hnone]
      trivial
    · rw [hi]
      rfl
  | @acts _ _ t x task rest hx htasks hact =>
    by_cases hu : u = t
    · subst hu
      have hp : Posture x.badge (task :: rest) := htasks ▸ h hx
      obtain ⟨x', hx', hstands⟩ := hact.stands (getElem?_modify_self hx) hp
      cases hx'.symm.trans hy
      exact hstands.posture
    · rcases hact.of_other hu hy with hold | ⟨e, rfl⟩
      · exact h hold
      · exact posture_serve e

/-- Everybody is in a posture and known under a number of its own, and a world stands still while
somebody waits for that. -/
structure Lawful (c : Crew) : Prop where
  posture : c.Postured
  known : ∀ {t : Nat} {x : Actor} {b : Badge}, c.actors[t]? = some x → x.badge = some b →
    ∃ r, c.registries[b.engine]? = some r ∧ b.id < r.nextId ∧
    (x.tasks.head? ≠ some .forget → b.id ∈ r.ids)
  apart : ∀ {t u : Nat} {x y : Actor} {b : Badge}, c.actors[t]? = some x → c.actors[u]? = some y →
    x.badge = some b → y.badge = some b → t = u
  kept : ∀ {t e : Nat} {x : Actor} {i : Option ThreadId} {rest : List Task}, c.actors[t]? = some x →
    x.tasks = .registry e (.awaitStops i) :: rest → ∃ r, c.registries[e]? = some r ∧
    r.worldStopped = true

theorem Lawful.exists_record (h : c.Lawful) (hx : c.actors[t]? = some x) (hb : x.badge = some b)
    (hnext : x.tasks.head? ≠ some .forget) :
    ∃ r m, c.registries[b.engine]? = some r ∧ b.id < r.nextId ∧ r.get? b.id = some m := by
  obtain ⟨r, hr, hlt, hmem⟩ := h.known hx hb
  obtain ⟨m, hm, hid⟩ := List.mem_map.mp (hmem hnext)
  have hfound : (r.get? b.id).isSome = true := List.find?_isSome.mpr ⟨m, hm, by simpa using hid⟩
  obtain ⟨k, hk⟩ := Option.isSome_iff_exists.mp hfound
  exact ⟨r, k, hr, hlt, hk⟩

end Laws

end Crew

namespace World

variable {x : Actor} (s : EngineSpec) (label : String) (moves : List Move)

theorem isFresh_start : (start s label).crew.IsFresh := by
  have hempty : ({} : World).crew.IsFresh :=
    ⟨fun hx => by simp [crew] at hx, fun hr => by simp [crew] at hr, fun q => by simp [crew, stand]⟩
  obtain ⟨made, hired, h⟩ := extends_start s label
  rw [h.crew]
  refine ⟨fun hx => ?_, fun hr => ?_, hempty.stand⟩
  · exact h.hired _ (Array.mem_of_getElem? (by simpa [crew] using hx))
  · obtain ⟨ms, rfl⟩ := h.made _ (Array.mem_of_getElem? (by simpa [crew] using hr))
    exact ⟨rfl, rfl⟩

theorem postured_after : ((start s label).after moves).crew.Postured := by
  induction moves using List.reverseRecOn with
  | nil => exact (isFresh_start s label).postured
  | append_singleton past m ih =>
    rw [after_append]
    exact ih.turn (turn_move m)

theorem getElem?_stations_of_actor {t : Nat} {w : World} (hx : w.crew.actors[t]? = some x) :
    ∃ z : Station, w.yard.stations[t]? = some z ∧ z.badge = x.badge ∧ z.tasks = x.tasks := by
  rw [getElem?_actors] at hx
  obtain ⟨y, hy, rfl⟩ := Option.map_eq_some_iff.mp hx
  exact ⟨y.station, station_of_thread hy, rfl, rfl⟩

/-- **In every run everybody is in a posture and known under a number of its own.** -/
theorem crew_lawful_after : ((start s label).after moves).crew.Lawful := by
  have hl := kept_after s label moves
  have hheld : ∀ {t : Nat} {x b}, ((start s label).after moves).crew.actors[t]? = some x →
      x.badge = some b → ∃ z : Station, ((start s label).after moves).yard.stations[t]? = some z ∧
      z.held = some b ∧ z.tasks = x.tasks := by
    intro t x b hx hb
    obtain ⟨z, hz, hbadge, htasks⟩ := getElem?_stations_of_actor hx
    exact ⟨z, hz, Station.held_of_badge (hl.orderly t z hz) (hbadge.trans hb), htasks⟩
  refine ⟨postured_after s label moves, ?_, ?_, ?_⟩
  · intro t x b hx hb
    obtain ⟨z, hz, hz', htasks⟩ := hheld hx hb
    obtain ⟨r, hr, hlt, hmem⟩ := hl.issued t z b hz hz'
    refine ⟨r, hr, hlt, fun hforget => hmem fun hexit => hforget ?_⟩
    rw [← htasks]
    exact head_of_expects_exit hexit
  · intro t u x y b hx hy hb hb'
    obtain ⟨z, hz, hz', -⟩ := hheld hx hb
    obtain ⟨z₁, hz₁, hz₁', -⟩ := hheld hy hb'
    exact hl.unique t u z z₁ b hz hz₁ hz' hz₁'
  · intro t e x i rest hx hnext
    obtain ⟨z, hz, -, htasks⟩ := getElem?_stations_of_actor hx
    refine hl.exists_of_mem_tokens (Yard.mem_tokens_of_awaits (i := i) hz ?_)
    rw [Station.awaits_of_head (htasks.trans hnext)]
    exact List.mem_cons_self ..

section Views

variable {w : World} {t e : Nat} {task : Task}

theorem nextTask_eq_some_iff :
    w.nextTask t = some task ↔ ∃ x rest, w.crew.actors[t]? = some x ∧ x.tasks = task :: rest := by
  unfold nextTask
  rw [getElem?_actors, Option.bind_eq_some_iff]
  constructor
  · rintro ⟨x, hx, hhead⟩
    obtain ⟨rest, hrest⟩ := List.head?_eq_some_iff.mp hhead
    exact ⟨x.actor, rest, by rw [hx]; rfl, hrest⟩
  · rintro ⟨x, rest, hx, htasks⟩
    obtain ⟨y, hy, rfl⟩ := Option.map_eq_some_iff.mp hx
    exact ⟨y, hy, by rw [show y.tasks = task :: rest from htasks]; rfl⟩

theorem nextTask_of_actor {rest : List Task}
    (hx : w.crew.actors[t]? = some x) (htasks : x.tasks = task :: rest) :
    w.nextTask t = some task := nextTask_eq_some_iff.mpr ⟨x, rest, hx, htasks⟩

theorem currentId_eq_some_iff {id : ThreadId} (hx : w.crew.actors[t]? = some x) :
    w.currentId t e = some id ↔ x.badge = some ⟨e, id⟩ := by
  rw [getElem?_actors] at hx
  obtain ⟨y, hy, rfl⟩ := Option.map_eq_some_iff.mp hx
  rw [currentId_eq hy]
  show Badge.idIn y.actor.badge e = some id ↔ y.actor.badge = some ⟨e, id⟩
  constructor
  · intro h
    obtain ⟨b, hb, rfl, rfl⟩ := Badge.eq_of_idIn h
    exact hb
  · intro h
    rw [h, Badge.idIn, if_pos rfl]

end Views

theorem crew_induction {P : List Move → Prop} (start : (World.start s label).crew.IsFresh → P [])
    (turn : ∀ past m, ((World.start s label).after past).crew.Lawful →
      Crew.Turn m ((World.start s label).after past).crew
        ((World.start s label).after (past ++ [m])).crew →
      P past → P (past ++ [m])) (moves : List Move) : P moves := by
  induction moves using List.reverseRecOn with
  | nil => exact start (isFresh_start s label)
  | append_singleton past m ih =>
    refine turn past m (crew_lawful_after s label past) ?_ ih
    rw [after_append]
    exact turn_move m

end World

end ManagedHeap
