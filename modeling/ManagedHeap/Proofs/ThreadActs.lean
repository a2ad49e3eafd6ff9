import ManagedHeap.Proofs.Registry
import ManagedHeap.Proofs.Runs
import ManagedHeap.Proofs.ThreadStates

/-!
# What threads do to each other

**Input.**  A move of a run.

**Algorithm.**  Most tasks bear on nothing but their own thread.  The others go through registries
and queues: a thread attaches, polls, enters and leaves regions, waits on a queue, wakes others, or
asks for any of that.

**Results.**  `Crew.Act` lists everything that a task can do to attachments, registries, queues and
the tasks that lead there, and `Crew.Turn` everything that a move can do.  `World.Gets.act`: a task
that only gives its thread tasks or an answer does nothing of it.
-/

namespace ManagedHeap

variable {x : Actor} {f : Actor → Actor} {task : Task}

/-- Whether a task is free and no call on a registry. -/
def Task.isAside : Task → Bool
  | .registry .. => false
  | task => task.isFree

theorem Task.isFree_of_isAside (h : task.isAside = true) : task.isFree = true := by
  cases task <;> first | exact h | cases h

theorem Task.isAside_of_isQuiet (h : task.isQuiet = true) :
    task.isAside = true ∧ task.isOrdinary = true := by
  cases task <;> first | exact ⟨rfl, rfl⟩ | exact ⟨rfl, h⟩ | cases h

namespace Actor

/-- Goes on after a section of a call on a registry. -/
def goOn (e : Nat) : Progress → Actor → Actor
  | .finished => fun x => x
  | .answered r => answer r
  | .continues op => push [.registry e op]

/-- The number of a thread in an engine, if it is attached there. -/
def idIn (x : Actor) (e : Nat) : Option ThreadId :=
  x.attachment.bind fun a => if a.engine = e then some a.id else none

/-- What a thread does for itself; there are `n` engines. -/
inductive Goes (n : Nat) (x : Actor) : Task → Actor → Prop
  | goesOn {task : Task} {front : List Task}
      (htask : task.isOrdinary = true ∨ ∃ i, task = .perform i)
      (hfront : front.all Task.isCommon = true) : Goes n x task (x.turn front a)
  /-- A pause begins. -/
  | begins {front : List Task} (he : e < n)
      (hfront : front.all Task.isCommon = true) : Goes n x (.beginCycle e reason)
      (x.push (front ++ [.registry e (.stopWorld (x.idIn e)), .pause e cycle reason]))
  | stops (he : e < n) : Goes n x (.perform (.stopWorld label i))
      (x.push [.registry e (.stopWorld i), .finish (.worldStopped e)])
  /-- The world stands still. -/
  | pauses {front : List Task} (hreply : x.reply = .count k)
      (hfront : front.all Task.isCommon = true) :
      Goes n x (.pause e cycle reason) (x.push (.registry e .releaseWorld :: front))
  /-- The world did not stop. -/
  | fails {task : Task} {front : List Task} (htask : task.isOrdinary = false)
      (hworld : (∃ cycle reason, task = .pause e cycle reason) ∨ task = .finish (.worldStopped e) ∨
        ∃ e', task = .conclude e' (.worldStopped e)) (hreply : e < n → ∀ k, x.reply ≠ .count k)
      (hfront : front.all Task.isCommon = true) :
      Goes n x task (x.push front)
  /-- A stretch of the program begins in which the world stands still. -/
  | stands {task : Task} {front : List Task}
      (htask : task = .finish (.worldStopped e) ∨ ∃ e', task = .conclude e' (.worldStopped e))
      (hreply : x.reply = .count k) (hfront : front.all Task.isCommon = true) :
      Goes n x task { x.push front with worlds := e :: x.worlds }
  /-- The stretch passes its pause on to the task that ends it. -/
  | releases {front : List Task} (h : x.worlds = e :: rest)
      (hfront : front.all Task.isCommon = true) : Goes n x (.perform (.releaseWorld label))
      { x.push (.registry e .releaseWorld :: front) with worlds := rest }

theorem isFree_of_isCommon {front : List Task} (h : front.all Task.isCommon = true) :
    front.all Task.isFree = true := by
  rw [List.all_eq_true] at h ⊢
  exact fun task htask => (Bool.and_eq_true_iff.mp (h task htask)).1

theorem isOrdinary_of_isCommon {front : List Task} (h : front.all Task.isCommon = true) :
    front.all Task.isOrdinary = true := by
  rw [List.all_eq_true] at h ⊢
  exact fun task htask => (Bool.and_eq_true_iff.mp (h task htask)).2

theorem Goes.front {n : Nat} {x' : Actor} (h : x.Goes n task x') : ∃ front,
    front.all Task.isFree = true ∧ x'.tasks = front ++ x.tasks ∧ x'.attachment = x.attachment := by
  cases h with
  | goesOn _ hfront | fails _ _ _ hfront | stands _ _ hfront =>
    exact ⟨_, isFree_of_isCommon hfront, rfl, rfl⟩
  | begins _ hfront =>
    refine ⟨_, ?_, rfl, rfl⟩
    rw [List.all_append, isFree_of_isCommon hfront]
    rfl
  | stops => exact ⟨_, rfl, rfl, rfl⟩
  | pauses _ hfront | releases _ hfront =>
    exact ⟨_ :: _, by rw [List.all_cons, isFree_of_isCommon hfront]; rfl, rfl, rfl⟩

end Actor

namespace Stand

/-- A reference is put on the queue, and one thread is woken. -/
def push (h : Handle) (s : Stand) : Stand := ⟨s.entries ++ [h], s.asleep.drop 1⟩

def wakeAll (s : Stand) : Stand := { s with asleep := [] }

def wake (t : Nat) (s : Stand) : Stand := { s with asleep := s.asleep.filter (· != t) }

/-- Makes a sleeping thread the one that is woken next. -/
def favour (t : Nat) (s : Stand) : Stand :=
  if t ∈ s.asleep then { s with asleep := t :: s.asleep.erase t } else s

def sleep (t : Nat) (s : Stand) : Stand := { s with asleep := s.asleep ++ [t] }

end Stand

namespace Crew

def record (c : Crew) (e : Nat) (id : ThreadId) : Option Mutator :=
  (c.registries[e]?).bind (·.get? id)

/-- Whether the interrupt flag of a thread is set. -/
def isInterrupted (c : Crew) (x : Actor) : Bool :=
  match x.attachment with
  | some a =>
    match c.record a.engine a.id with
    | some m => m.interrupted
    | none => false
  | none => false

/-- What the task that a thread has just taken off its stack does to the others. -/
inductive Act (t : Nat) (x : Actor) (c : Crew) : Task → Crew → Prop
  /-- Nothing. -/
  | idles {task : Task} (htask : task.isAside = true ∨ ∃ i, task = .perform i)
      (h : x.Goes c.registries.size task x') : Act t x c task (c.modify t fun _ => x')
  | operates (hr : c.registries[e]? = some r) (h : r.step t expired op = some (r', p)) :
      Act t x c (.registry e op) ((c.modifyRegistry e fun _ => r').modify t (Actor.goOn e p))
  | misses (hr : c.registries[e]? = none) : Act t x c (.registry e op) c
  /-- The thread sees that it has to come in. -/
  | polls {task : Task} {front : List Task} (htask : task.isAside = true ∨ ∃ i, task = .perform i)
      (ha : x.attachment = some a) (hm : c.record a.engine a.id = some m)
      (hflag : m.pollRequested = true) (hfront : front.all Task.isCommon = true)
      (hplain : task.isOrdinary = true ∨ ∃ i, task = .perform i) :
      Act t x c task (c.modify t (Actor.push (.registry a.engine (.poll a.id) :: front)))
  | blocks (ha : x.attachment = some a)
      (hout : a.inRegion = false) : Act t x c (.blocking hold body) (c.modify t fun x =>
        (x.setRegion true).push [.registry a.engine (.enterBlocking a.id), body,
        .registry a.engine (.leaveBlocking a.id hold), .endRegion])
  /-- Outside of attachments and inside of regions there is nothing to enter. -/
  | nests : Act t x c (.blocking hold body) (c.modify t (Actor.push [body]))
  | enters {front : List Task} (ha : x.attachment = some a) (hout : a.inRegion = false)
      (hfront : front.all Task.isCommon = true) : Act t x c (.perform i) (c.modify t fun x =>
        (x.setRegion true).push (.registry a.engine (.enterBlocking a.id) :: front))
  | leaves {front : List Task} (ha : x.attachment = some a)
      (hfront : front.all Task.isCommon = true) : Act t x c (.perform i) (c.modify t
        (Actor.push (.registry a.engine (.leaveBlocking a.id .any) :: .endRegion :: front)))
  | ends : Act t x c .endRegion (c.modify t (Actor.setRegion false))
  | joins {front : List Task} (he : (c.registries[e]?).isSome = true) (ha : x.attachment = none)
      (hfront : front.all Task.isCommon = true) : Act t x c (.perform i)
      (c.modify t (Actor.push (.registry e (.attach name) :: .adopt e foreign :: front)))
  | adopts (hreply : x.reply = .count i) : Act t x c (.adopt e foreign) (c.modify t fun x =>
        { x with attachment := some ⟨e, i, foreign, false⟩ }.push [.checkpoint e])
  | stays (hreply : ∀ i, x.reply ≠ .count i) : Act t x c (.adopt e foreign) c
  | quits {front : List Task} (ha : x.attachment = some a)
      (hfront : front.all Task.isCommon = true) : Act t x c (.perform i) (c.modify t fun x =>
        (x.push (.registry a.engine (.detach a.id) :: .forget :: front)).answer r)
  | forgets : Act t x c .forget (c.modify t fun x => { x with attachment := none })
  | interrupts (hm : c.record e i = some m) :
      Act t x c (.interrupt e i) ((c.modifyRegistry e (·.interrupt i)).modify t fun x =>
        (x.answer .unit).push [.wakeBlocked e i])
  | finds (hq : (c.record e i).bind (·.blocker) = some q) :
      Act t x c (.wakeBlocked e i) (c.modify t (Actor.push [.wakeQueue q]))
  | passes (hq : (c.record e i).bind (·.blocker) = none) : Act t x c (.wakeBlocked e i) c
  | wakes : Act t x c (.wakeQueue q) (c.modifyStand q Stand.wakeAll)
  | enqueues : Act t x c (.pushQueue q h) (c.modifyStand q (Stand.push h))
  | takes (hq : (c.stand q).entries = h :: rest) : Act t x c (.pollQueue q) ((c.modifyStand q
        fun s => { s with entries := rest }).modify t (Actor.push [.finishRemoval q h]))
  | waits : Act t x c (.waitOnQueue q ms)
      (c.modify t (Actor.push [.setBlocker (some q), .awaitEntry q ms, .setBlocker none]))
  | recordsBlocker (ha : x.attachment = some a) :
      Act t x c (.setBlocker q) (c.modifyRegistry a.engine (·.waitOn a.id q))
  | recordsNothing (ha : x.attachment = none) : Act t x c (.setBlocker q) c
  | takesEntry (hq : (c.stand q).entries = h :: rest) :
      Act t x c (.awaitEntry q ms) ((c.modifyStand q fun s =>
        { s.wake t with entries := rest }).modify t (Actor.push [.finishRemoval q h]))
  | breaksOff (hq : (c.stand q).entries = []) (ha : x.attachment = some a)
      (hflag : c.isInterrupted x = true) : Act t x c (.awaitEntry q ms)
      (((c.modifyStand q (Stand.wake t)).modifyRegistry a.engine (·.clearInterrupt a.id)).modify t
        (Actor.answer (.failed .interrupted)))
  | timesOut (hq : (c.stand q).entries = []) : Act t x c (.awaitEntry q ms)
      ((c.modifyStand q (Stand.wake t)).modify t (Actor.answer (.entry none)))
  | sleeps (hq : (c.stand q).entries = []) (hflag : c.isInterrupted x = false) :
      Act t x c (.awaitEntry q ms)
        ((c.modifyStand q fun s => (s.wake t).sleep t).modify t (Actor.push [.awaitEntry q ms]))
  | clearsFlag (ha : x.attachment = some a) :
      Act t x c (.perform .takeInterrupt) (c.modifyRegistry a.engine (·.clearInterrupt a.id))
  /-- Engines are made, and threads that run finalizers. -/
  | opens {i : Instruction} {made : Array Registry} {hired : Array Actor} {front : List Task}
      (hmade : ∀ r ∈ made, ∃ ms, r = { timeout := ms }) (hhired : ∀ y ∈ hired, ∃ e,
        y = ⟨none, [], [.serve e], .unit⟩)
      (hfront : front.all Task.isCommon = true) :
      Act t x c (.perform i) ({ c with
        registries := c.registries ++ made
        actors := c.actors ++ hired }.modify t (Actor.push front))

/-- What a move does to the threads of a world. -/
inductive Turn : Move → Crew → Crew → Prop
  | rests {c : Crew} {m : Move} (hm : ∀ t, m ≠ .step t) : Turn m c c
  /-- A thread cannot move; if it waits for an entry, nobody has woken it. -/
  | waits {c : Crew} {t : Nat}
      (h : ∀ {q : Nat} {x : Actor} {ms : Option Nat} {rest : List Task}, c.actors[t]? = some x →
        x.tasks = .awaitEntry q ms :: rest → t ∈ (c.stand q).asleep) : Turn (.step t) c c
  | comes {c : Crew}
      {name : String} : Turn (.call name) c { c with actors := c.actors.push ⟨none, [], [], .unit⟩ }
  | begins {c : Crew} {t number : Nat} {timed : Bool} {i : Instruction}
      {x : Actor} (hx : c.actors[t]? = some x) (hidle : x.tasks = []) :
      Turn (.instruct t number timed i) c (c.modify t fun x => { x with tasks := [.perform i] })
  /-- Another sleeper is to be woken next. -/
  | favours {c : Crew} {q t : Nat} : Turn (.favour q t) c (c.modifyStand q (Stand.favour t))
  | acts {c c' : Crew} {t : Nat} {x : Actor} {task : Task} {rest : List Task}
      (hx : c.actors[t]? = some x) (htasks : x.tasks = task :: rest)
      (h : Act t { x with tasks := rest } (c.modify t fun x => { x with tasks := rest }) task c') :
      Turn (.step t) c c'

variable {c : Crew} {t : Nat}

theorem getElem?_modify_self (hx : c.actors[t]? = some x) :
    (c.modify t f).actors[t]? = some (f x) := by
  unfold modify
  rw [Array.getElem?_modify, if_pos rfl, hx]
  rfl

theorem getElem?_modify_of_ne (hj : j ≠ t) : (c.modify t f).actors[j]? = c.actors[j]? := by
  unfold modify
  rw [Array.getElem?_modify, if_neg (Ne.symm hj)]

theorem modifyStand_self {q : Nat} {f : Stand → Stand} (h : f (c.stand q) = c.stand q) :
    c.modifyStand q f = c := by
  have hstand : (fun p => if p = q then f (c.stand p) else c.stand p) = c.stand := by
    funext p
    split
    · next hp => rw [hp, h]
    · rfl
  rw [modifyStand, hstand]

end Crew

namespace World

variable {w w₁ w' : World} {t e : Nat}

section Primitives

theorem crew_modifyRegistry (f : Registry → Registry) :
    (w.modifyRegistry e f).crew = w.crew.modifyRegistry e f := by
  have hregistries :
      (w.engines.modify e fun x => { x with registry := f x.registry }).map (·.registry) =
      (w.engines.map (·.registry)).modify e f := map_modify fun _ => rfl
  unfold crew modifyRegistry modifyEngine Crew.modifyRegistry
  dsimp only
  rw [hregistries]
  rfl

theorem crew_modifyQueue {q : Nat} {queue : Queue} {f : Queue → Queue} {g : Stand → Stand}
    (hq : w.queues[q]? = some queue) (h : (f queue).stand = g queue.stand) :
    (w.modifyQueue q f).crew = w.crew.modifyStand q g := by
  unfold crew Crew.modifyStand
  dsimp only
  congr 1
  funext p
  unfold stand modifyQueue
  dsimp only
  rw [Array.getElem?_modify]
  by_cases hp : q = p
  · subst hp
    simp [hq, h]
  · rw [if_neg hp, if_neg (Ne.symm hp)]

theorem getElem?_actors (j : Nat) : w.crew.actors[j]? = (w.threads[j]?).map Thread.actor :=
  Array.getElem?_map

theorem getElem?_registries_crew (j : Nat) :
    w.crew.registries[j]? = (w.engines[j]?).map (·.registry) :=
  Array.getElem?_map

theorem record_crew (e : Nat) (id : ThreadId) :
    w.crew.record e id = (w.engines[e]?).bind fun x => x.registry.get? id := by
  unfold Crew.record
  rw [getElem?_registries_crew]
  cases w.engines[e]? <;> rfl

theorem crew_take (rest : List Task) : (w.take t rest).crew = w.crew.take t rest :=
  crew_modifyThread fun _ => rfl

variable (hx : w.crew.actors[t]? = some x)

include hx

theorem attachmentOf_eq : w.attachmentOf t = x.attachment := by
  rw [getElem?_actors] at hx
  obtain ⟨y, hy, rfl⟩ := Option.map_eq_some_iff.mp hx
  unfold attachmentOf
  rw [hy]
  rfl

theorem replyOf_eq : w.replyOf t = x.reply := by
  rw [getElem?_actors] at hx
  obtain ⟨y, hy, rfl⟩ := Option.map_eq_some_iff.mp hx
  unfold replyOf
  rw [hy]
  rfl

theorem isInterrupted_eq : w.isInterrupted t = w.crew.isInterrupted x := by
  unfold isInterrupted Crew.isInterrupted
  rw [attachmentOf_eq hx]
  cases x.attachment with
  | none => rfl
  | some a =>
    dsimp only
    rw [record_crew]
    cases w.engines[a.engine]? <;> rfl

end Primitives

section Idling

variable {x : Actor} {task : Task}

theorem modify_of_some {c : Crew} (hx : c.actors[t]? = some x) :
    c.modify t f = c.modify t fun _ => f x := by
  unfold Crew.modify
  rw [modify_congr fun y hy => ?_]
  rw [hx] at hy
  cases hy
  rfl

theorem act_of_goes (hx : w.crew.actors[t]? = some x)
    (htask : task.isAside = true ∨ ∃ i, task = .perform i) (hcrew : w'.crew = w.crew.modify t f)
    (h : x.Goes w.engines.size task (f x)) : Crew.Act t x w.crew task w'.crew := by
  rw [hcrew, modify_of_some hx]
  refine .idles htask ?_
  rwa [show w.crew.registries.size = w.engines.size from Array.size_map ..]

theorem Gets.act (hx : w.crew.actors[t]? = some x)
    (haside : task.isAside = true ∨ ∃ i, task = .perform i)
    (htask : task.isOrdinary = true ∨ ∃ i, task = .perform i) (h : Gets Task.isCommon t w w') :
    Crew.Act t x w.crew task w'.crew := by
  obtain ⟨front, a, hfront, hcrew⟩ := h
  exact act_of_goes hx haside hcrew (.goesOn htask hfront)

end Idling

end World

end ManagedHeap
