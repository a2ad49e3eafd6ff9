import ManagedHeap.Machine.Schedule
import ManagedHeap.Proofs.Assets

/-!
# Threads as others see them

**Input.**  A world and one of its threads.

**Algorithm.**  A crew shows what threads have to agree on: who is attached, inside a region or
asleep, who keeps a world standing still, who waits on a queue, and everybody's tasks.

**Results.**  `World.gets_runTask` and `World.gets_perform`: calm tasks and calm instructions put
common tasks on the stack of their thread, or answer it, and do nothing else to a crew.
-/

namespace ManagedHeap

section Kinds

/-- Whether a call on a registry is not about the record of the thread that makes it. -/
@[simp]
def Operation.isOutside : Operation → Bool
  | .requestSuspend _ | .resume _ | .awaitSuspension .. | .stopWorld _ | .awaitStops _
  | .releaseWorld => true
  | _ => false

/-- Whether a task neither moves its thread through attachments, regions and waits nor tells a
waiting thread of an interrupt. -/
@[simp]
def Task.isFree : Task → Bool
  | .registry _ op => op.isOutside
  | .blocking _ inner => inner.isFree
  | .endRegion | .adopt .. | .forget | .perform _ => false
  | .setBlocker _ | .awaitEntry .. | .wakeBlocked .. | .wakeQueue _ => false
  | _ => true

/-- Whether a call on a registry neither begins nor ends a pause, an attachment or a part of one. -/
@[simp]
def Operation.isOrdinary : Operation → Bool
  | .stopWorld _ | .awaitStops _ | .releaseWorld | .attach _ | .detach _ => false
  | _ => true

/-- Whether nothing is kept at the end of an instruction. -/
@[simp]
def Finish.isOrdinary : Finish → Bool
  | .worldStopped _ => false
  | _ => true

/-- Whether a task can be put on a stack at any time. -/
@[simp]
def Task.isOrdinary : Task → Bool
  | .registry _ op => op.isOrdinary
  | .blocking _ inner => inner.isOrdinary
  | .finish f | .conclude _ f => f.isOrdinary
  | .adopt .. | .forget | .pause .. | .perform _ => false
  | _ => true

@[simp]
def Task.isCommon (task : Task) : Bool := task.isFree && task.isOrdinary

/-- Whether a task does nothing to a crew but give its thread common tasks or an answer. -/
def Task.isQuiet : Task → Bool
  | .registry .. | .checkpoint _ | .blocking .. | .endRegion | .adopt .. | .forget | .selfPoll .. =>
    false
  | .perform _ | .interrupt .. | .wakeBlocked .. | .wakeQueue _ | .beginCycle .. | .pause .. =>
    false
  | .pushQueue .. | .pollQueue _ | .waitOnQueue .. | .setBlocker _ | .awaitEntry .. => false
  | .finish f | .conclude _ f => f.isOrdinary
  | _ => true

/-- Whether an instruction does nothing to a crew but give its thread common tasks or an answer. -/
def Instruction.isQuiet : Instruction → Bool
  | .makeEngine .. | .start _ | .attach .. | .detach | .safepoint | .takeInterrupt => false
  | .enterBlocking | .leaveBlocking _ | .stopWorld .. | .releaseWorld _ => false
  | .foreign (.create ..) | .foreign (.attach ..) | .foreign .detach | .foreign .poll => false
  | _ => true

end Kinds

/-- The engine of a stretch in which a world stands still. -/
def Scope.world? : Scope → Option Nat
  | .blocking _ => none
  | .world e => some e

/-- A thread as others see it. -/
structure Actor where
  attachment : Option Attachment
  /-- The engines whose world a stretch of the program keeps standing still, the innermost first. -/
  worlds : List Nat
  tasks : List Task
  reply : Reply

/-- A queue as waiting threads see it. -/
structure Stand where
  entries : List Handle
  asleep : List Nat

/-- The threads of a world, the registries they are in and the queues they wait on. -/
structure Crew where
  actors : Array Actor
  registries : Array Registry
  stand : Nat → Stand

def Thread.actor (x : Thread) : Actor :=
  ⟨x.attachment, x.scopes.filterMap Scope.world?, x.tasks, x.reply⟩

def Queue.stand (q : Queue) : Stand := ⟨q.entries, q.asleep⟩

namespace Actor

/-- Puts tasks in front of those that a thread has, and perhaps answers it. -/
def turn (front : List Task) (a : Option Reply) (x : Actor) : Actor :=
  { x with tasks := front ++ x.tasks, reply := a.getD x.reply }

/-- Puts tasks in front of those that a thread has. -/
def push (tasks : List Task) (x : Actor) : Actor := { x with tasks := tasks ++ x.tasks }

def answer (r : Reply) (x : Actor) : Actor := { x with reply := r }

/-- Sets whether a thread is inside a blocking region. -/
def setRegion (inside : Bool) (x : Actor) : Actor :=
  { x with attachment := x.attachment.map fun a => { a with inRegion := inside } }

end Actor

namespace Crew

def modify (c : Crew) (t : Nat) (f : Actor → Actor) : Crew :=
  { c with actors := c.actors.modify t f }

/-- A crew in which a thread has taken its next task and has the rest before it. -/
abbrev take (c : Crew) (t : Nat) (rest : List Task) : Crew :=
  c.modify t fun x => { x with tasks := rest }

def modifyRegistry (c : Crew) (e : Nat) (f : Registry → Registry) : Crew :=
  { c with registries := c.registries.modify e f }

def modifyStand (c : Crew) (q : Nat) (f : Stand → Stand) : Crew :=
  { c with stand := fun p => if p = q then f (c.stand p) else c.stand p }

variable {c : Crew} {t : Nat}

theorem modify_self : c.modify t (fun x => x) = c := by
  rw [modify, modify_eq_self fun _ _ => rfl]

theorem modify_comp {f g : Actor → Actor} :
    (c.modify t f).modify t g = c.modify t fun x => g (f x) := by
  unfold modify
  rw [modify_modify]

end Crew

namespace World

variable {w w₁ w' : World} {t e : Nat} {h : Handle}

/-- A queue as waiting threads see it; a queue that nobody has made is empty. -/
def stand (w : World) (q : Nat) : Stand :=
  match w.queues[q]? with
  | some x => x.stand
  | none => ⟨[], []⟩

/-- The threads of a world, the registries they are in and the queues they wait on. -/
def crew (w : World) : Crew where
  actors := w.threads.map Thread.actor
  registries := w.engines.map (·.registry)
  stand := w.stand

section Primitives

theorem crew_modifyThread {f : Thread → Thread} {g : Actor → Actor}
    (h : ∀ x, (f x).actor = g x.actor) : (w.modifyThread t f).crew = w.crew.modify t g := by
  unfold crew modifyThread Crew.modify
  dsimp only
  rw [map_modify h]
  rfl

theorem crew_push (tasks : List Task) :
    (w.push t tasks).crew = w.crew.modify t (Actor.push tasks) :=
  crew_modifyThread fun _ => rfl

theorem crew_answer (r : Reply) : (w.answer t r).crew = w.crew.modify t (Actor.answer r) :=
  crew_modifyThread fun _ => rfl

theorem crew_setRegion (b : Bool) : (w.setRegion t b).crew = w.crew.modify t (Actor.setRegion b) :=
  crew_modifyThread fun _ => rfl

theorem crew_modifyThread_of_actor {f : Thread → Thread} (h : ∀ x, (f x).actor = x.actor) :
    (w.modifyThread t f).crew = w.crew := by
  rw [crew_modifyThread (g := fun x => x) h, Crew.modify_self]

@[simp]
theorem crew_complete (a : Answer) : (w.complete t a).crew = w.crew := by
  unfold complete
  split
  · rfl
  · exact crew_modifyThread_of_actor (f := fun x => { x with instruction := none }) fun _ => rfl

@[simp]
theorem crew_modifyEngine {f : Runtime → Runtime} (h : ∀ x, (f x).registry = x.registry) :
    (w.modifyEngine e f).crew = w.crew := by
  have hregistries : (w.engines.modify e f).map (·.registry) = w.engines.map (·.registry) := by
    rw [map_modify (k := fun x => x) h, modify_eq_self fun _ _ => rfl]
  unfold crew modifyEngine
  dsimp only
  rw [hregistries]
  rfl

@[simp]
theorem crew_modifyHeap (f : Heap Finalizer → Heap Finalizer) : (w.modifyHeap e f).crew = w.crew :=
  crew_modifyEngine fun _ => rfl

@[simp]
theorem crew_modifyCollector (f : Collector → Collector) : (w.modifyCollector e f).crew = w.crew :=
  crew_modifyEngine fun _ => rfl

@[simp]
theorem crew_modifyStatistics (f : Statistics → Statistics) :
    (w.modifyStatistics e f).crew = w.crew :=
  crew_modifyEngine fun _ => rfl

@[simp]
theorem crew_modifyFinalization (f : Finalization Finalizer → Finalization Finalizer) :
    (w.modifyFinalization e f).crew = w.crew := crew_modifyEngine fun _ => rfl

@[simp]
theorem crew_retainEngine : (w.retainEngine e).crew = w.crew := crew_modifyEngine fun _ => rfl

theorem crew_modifyQueue_of_stand {q : Nat} {f : Queue → Queue} (h : ∀ x, (f x).stand = x.stand) :
    (w.modifyQueue q f).crew = w.crew := by
  have hstand : (w.modifyQueue q f).stand = w.stand := by
    funext p
    unfold stand modifyQueue
    dsimp only
    rw [Array.getElem?_modify]
    by_cases hp : q = p
    · rw [if_pos hp]
      cases w.queues[p]? <;> simp [h]
    · rw [if_neg hp]
  unfold crew
  rw [hstand]
  rfl

@[simp]
theorem crew_report (records : List LogRecord) : (w.report records).crew = w.crew := (rfl)

@[simp]
theorem crew_note (n : FinalizerNote) : (w.note n).crew = w.crew := (rfl)

@[simp]
theorem crew_log (event : Event) : (w.log e event).crew = w.crew := by
  unfold log
  split
  · rfl
  · exact crew_modifyEngine (w := w) (f := fun x => { x with journal := _ }) fun _ => rfl

@[simp]
theorem crew_mk (gates : List String) (names : Names) (handles : List AgentHandle) (next : Nat)
    (first : Option Nat) (held : Bool) (output : Output) : crew ⟨w.engines, w.queues, w.threads,
      gates, names, handles, next, first, held, output⟩ = w.crew := (rfl)

@[simp]
theorem crew_makeQueue (names : Names) :
    crew { w with queues := w.queues.push {}, names := names } = w.crew := by
  have hstand : stand { w with queues := w.queues.push {}, names := names } = w.stand := by
    funext p
    unfold stand
    dsimp only
    rw [Array.getElem?_push]
    by_cases hp : p = w.queues.size
    · simp [hp, Queue.stand]
    · rw [if_neg hp]
  unfold crew
  rw [hstand]

end Primitives

section Values

@[simp]
theorem crew_dropRoot (r : Root) : (w.dropRoot r).crew = w.crew := crew_modifyHeap _

@[simp]
theorem crew_cloneRoot (r : Root) : (w.cloneRoot r).crew = w.crew := crew_modifyHeap _

@[simp]
theorem crew_modifyReference (h : Handle) (f : Heap Finalizer → Nat → Heap Finalizer) :
    (w.modifyReference h f).crew = w.crew := crew_modifyHeap _

@[simp]
theorem crew_refuse (r : Refusal) : (w.refuse t r).crew = w.crew := crew_complete _

@[simp]
theorem crew_bindObject (name : String) (r : Root) : (w.bindObject name r).crew = w.crew := by
  unfold bindObject
  dsimp only
  split <;> simp

@[simp]
theorem crew_bindObject? (name : Option String) (r : Root) :
    (w.bindObject? name r).crew = w.crew := by
  unfold bindObject?
  split <;> simp

@[simp]
theorem crew_bindForeign (name : Option String) (r : Root) :
    (w.bindForeign name r).crew = w.crew := by
  unfold bindForeign
  dsimp only
  split
  · simp
  · split <;> simp

@[simp]
theorem crew_bindReference (name : String) (h : Handle) :
    (w.bindReference name h).crew = w.crew := by
  unfold bindReference
  dsimp only
  split <;> simp

@[simp]
theorem crew_bindForeignReference (name : String) (h : Handle) :
    (w.bindForeignReference name h).crew = w.crew := by
  unfold bindForeignReference
  dsimp only
  split <;> simp

@[simp]
theorem crew_cloneNamed (labels : List String) : (w.cloneNamed labels).2.crew = w.crew := by
  unfold cloneNamed
  dsimp only
  generalize labels.filterMap (fun l => w.names.objects.get? l) = roots
  induction roots generalizing w with
  | nil => rfl
  | cons r rest ih => exact ih.trans (crew_cloneRoot r)

@[simp]
theorem crew_makeRequest (s : ObjectSpec) : (w.makeRequest s).2.crew = w.crew := by
  unfold makeRequest
  split
  · rfl
  · exact crew_cloneNamed _

@[simp]
theorem crew_exchangeStage (h : Handle) (old new : ReferenceStage) :
    (w.exchangeStage h old new).2.crew = w.crew := by
  unfold exchangeStage
  split <;> simp

@[simp]
theorem crew_getReferent (h : Handle) : (w.getReferent h).2.crew = w.crew := by
  unfold getReferent
  split <;> simp

@[simp]
theorem crew_peekReferent (name : String) : (w.peekReferent name).2.crew = w.crew := by
  unfold peekReferent
  split
  · rfl
  · next h _ =>
      have hcrew := crew_getReferent (w := w) h
      split
      · next heq => rw [heq] at hcrew; exact hcrew
      · next heq => rw [heq] at hcrew; exact (crew_dropRoot _).trans hcrew

@[simp]
theorem crew_readField (r : Root) (index : Nat) (bind : Option String) :
    (w.readField r index bind).2.crew = w.crew := by
  unfold readField
  split
  · rfl
  · split <;> simp

@[simp]
theorem crew_writeField (r : Root) (index : Nat) (value : Option String) :
    (w.writeField r index value).2.crew = w.crew := by
  unfold writeField
  split
  · rfl
  · split <;> simp

@[simp]
theorem crew_noteRun (job : Job Finalizer) (results : List ActionResult) :
    (w.noteRun t job results).crew = w.crew := by
  unfold noteRun
  split <;> rfl

@[simp]
theorem crew_releaseAgent (a : AgentHandle) : (w.releaseAgent a).crew = w.crew := by
  unfold releaseAgent
  dsimp only
  split
  · rfl
  · exact crew_modifyEngine fun _ => rfl

@[simp]
theorem crew_dropPrevious (previous : Option Root) : (w.dropPrevious previous).crew = w.crew := by
  unfold dropPrevious
  split <;> simp

theorem crew_bindValue {f : Finish} (hf : f.isOrdinary = true) :
    (w.bindValue t f).2.crew = w.crew := by
  cases f with
  | worldStopped e => cases hf
  | plain | other => rfl
  | _ =>
    simp only [bindValue]
    (repeat' split) <;> simp [reportFailure]

end Values

section Tasks

/-- A thread gets tasks of a kind, and perhaps an answer, and nothing else happens to a crew. -/
def Gets (p : Task → Bool) (t : Nat) (w w' : World) : Prop :=
  ∃ front a, front.all p = true ∧ w'.crew = w.crew.modify t (Actor.turn front a)

variable {p : Task → Bool} {tasks : List Task}

@[simp]
theorem gets_of_crew (h : w'.crew = w.crew) : Gets p t w w' :=
  ⟨[], none, rfl, h.trans Crew.modify_self.symm⟩

theorem Gets.andThen (h : Gets p t w w₁) (he : w'.crew = w₁.crew) : Gets p t w w' := by
  obtain ⟨front, a, hfront, hcrew⟩ := h
  exact ⟨front, a, hfront, he.trans hcrew⟩

theorem Gets.push (h : Gets p t w w₁) (htasks : tasks.all p = true) :
    Gets p t w (w₁.push t tasks) := by
  obtain ⟨front, a, hfront, hcrew⟩ := h
  refine ⟨tasks ++ front, a, by rw [List.all_append, htasks, hfront]; rfl, ?_⟩
  rw [crew_push, hcrew, Crew.modify_comp]
  unfold Actor.push Actor.turn
  simp only [List.append_assoc]

theorem Gets.answer (h : Gets p t w w₁) (r : Reply) : Gets p t w (w₁.answer t r) := by
  obtain ⟨front, a, hfront, hcrew⟩ := h
  refine ⟨front, some r, hfront, ?_⟩
  rw [crew_answer, hcrew, Crew.modify_comp]
  rfl

@[simp]
theorem gets_push (he : w₁.crew = w.crew) (htasks : tasks.all p = true) :
    Gets p t w (w₁.push t tasks) := (gets_of_crew he).push htasks

@[simp]
theorem gets_answer (he : w₁.crew = w.crew) (r : Reply) : Gets p t w (w₁.answer t r) :=
  (gets_of_crew he).answer r

@[simp]
theorem gets_both (he : w₁.crew = w.crew) (r : Reply) (htasks : tasks.all p = true) :
    Gets p t w ((w₁.answer t r).push t tasks) := (gets_answer he r).push htasks

@[simp]
theorem crew_setPhase (p : Phase) : (w.setPhase e p).crew = w.crew := crew_modifyCollector _

theorem crew_of_exchange {old new : ReferenceStage} {moved : Bool}
    (he : w.exchangeStage h old new = (moved, w₁)) : w₁.crew = w.crew := by
  have hcrew := crew_exchangeStage (w := w) h old new
  rwa [he] at hcrew

theorem gets_beginEnqueue {task : Task} (htask : task.isCommon = true) :
    Gets Task.isCommon t w ((w.push t [task]).beginEnqueue t h) :=
  ((gets_push rfl (by simpa using htask)).andThen (crew_modifyReference _ _)).push rfl

/-- **Calm tasks give their thread common tasks or an answer.** -/
theorem gets_runTask {task : Task} (htask : task.isQuiet = true) (h : w.runTask t task = some w') :
    Gets Task.isCommon t w w' := by
  cases task with
  | registry | checkpoint | blocking | endRegion | adopt | forget | selfPoll
  | perform | interrupt | wakeBlocked | wakeQueue | beginCycle | pause
  | pushQueue | pollQueue | waitOnQueue | setBlocker | awaitEntry =>
    cases htask
  | finish f => cases h; exact gets_of_crew ((crew_complete _).trans (crew_bindValue htask))
  | conclude e f => cases h; exact gets_push (crew_bindValue htask) rfl
  | resumed e target =>
    cases h
    unfold resumed
    split
    · simp
    · exact ((gets_answer rfl _).andThen (crew_log _)).push rfl
    · simp
  | enqueuePending e pending jobs r =>
    simp only [runTask, enqueuePending] at h
    (repeat' split at h) <;> cases h
    · simp
    · simp
    · next he => simp [crew_of_exchange he]
    · next he => simp [crew_of_exchange he]
  | claimActive | claimPending =>
    simp only [runTask, claimActive, claimPending] at h
    split at h <;> next he => cases h; simp [crew_of_exchange he]
  | finishRemoval q k =>
    cases h
    have hcounted : ∀ {v : World}, (v.modifyQueue q Queue.countRemoval).crew = v.crew :=
      crew_modifyQueue_of_stand fun _ => rfl
    simp [finishRemoval, hcounted]
  | body e job actions results =>
    simp only [runTask, runBody, passGate] at h
    (repeat' split at h) <;> cases h <;> try simp [afterBody]
    exact gets_beginEnqueue rfl
  | gate | dispatch | deliver | delivered | suspended | repeatSuspend | clearReferent
  | releaseReference =>
    simp only [runTask, passGate, dispatch, deliver, delivered, suspended, repeatSuspend,
      clearReferent] at h
    (repeat' split at h) <;> cases h <;> simp
  | lockCollector | unlockCollector | setPhase | collect | collectOpen | dropHeld | dropFinalizers
  | finishCycle | reply | allocate | attempt | retry =>
    simp only [runTask, lockCollector, unlockCollector, collectOpen, dropHeld, dropFinalizers,
      finishCycle, allocate, attempt, retry, refuseAllocation, store] at h
    (repeat' split at h) <;> simp only [Option.some.injEq, reduceCtorEq] at h <;> subst h <;>
      simp [collectTasks]
  | schedule | enrol | send | serve | drain | drainUnstarted | claimReceiver | closeChannel | runJob
  | bodyResumes | discardJobs | retire | leaveService | announceExit | announce =>
    simp only [runTask, schedule, enrol, send, serve, drain, drainUnstarted, claimReceiver,
      closeChannel, runJob, bodyResumes, discardJobs] at h
    (repeat' split at h) <;> cases h <;> simp
  | finishObject | dropRoot | concludeJob | countPanic | dropJobs | runFinalization | awaitDrain =>
    simp only [runTask, concludeJob, dropJobs, runFinalization, awaitDrain] at h
    (repeat' split at h) <;> cases h <;> simp
  | stopEngine | shutdownCollected | refuseWork | awaitExit | stopped | releaseEngine
  | releaseAgent =>
    simp only [runTask, stopEngine, shutdownCollected, refuseWork, awaitExit, stopped,
      releaseEngine] at h
    (repeat' split at h) <;> cases h <;> simp [collectTasks]
  | garbage | garbageNext | chain | chainNext | keepObject =>
    simp only [runTask, garbage, garbageNext, chain, chainNext, keepObject] at h
    (repeat' split at h) <;> cases h <;> simp

end Tasks

section Instructions

@[simp]
theorem crew_foldl_dropNamed (labels : List String) (s : Nat × World) :
    (labels.foldl dropNamed s).2.crew = s.2.crew := by
  induction labels generalizing s with
  | nil => rfl
  | cons label rest ih =>
    refine (ih (dropNamed s label)).trans ?_
    unfold dropNamed
    split <;> simp

@[simp]
theorem crew_performNewReference (label : String) (kind : Option ReferenceKind) (r : Root)
    (queue : Option Nat) : (w.performNewReference t e label kind r queue).crew = w.crew := by
  unfold performNewReference
  (repeat' split) <;> simp

theorem crew_of_getReferent {got : Option Root} (hgot : w.getReferent h = (got, w₁)) :
    w₁.crew = w.crew := by
  have hcrew := crew_getReferent (w := w) h
  rwa [hgot] at hcrew

theorem gets_performForeign {call : ForeignCall} (h : (Instruction.foreign call).isQuiet = true) :
    Gets Task.isCommon t w (w.performForeign t call) := by
  cases call with
  | create | attach | detach | poll => cases h
  | getReferent reference bind =>
    simp only [performForeign]
    split
    · simp
    · split <;> next hgot => simp [crew_of_getReferent hgot]
  | _ =>
    simp only [performForeign, withForeign, withForeignObject, World.call]
    (repeat' split) <;> simp [suspendTasks, resumeTasks, reportFailure]

/-- **Calm instructions give their thread common tasks or an answer.** -/
theorem gets_perform {i : Instruction} (h : i.isQuiet = true) :
    Gets Task.isCommon t w (w.perform t i) := by
  cases i with
  | makeEngine | start | attach | detach | safepoint | takeInterrupt => cases h
  | enterBlocking | leaveBlocking | stopWorld | releaseWorld => cases h
  | foreign call => exact gets_performForeign h
  | getReferent reference bind =>
    simp only [perform, withReference]
    (repeat' split) <;> try simp
    all_goals next hgot => simp [crew_of_getReferent hgot]
  | enqueue reference =>
    simp only [perform, withReference]
    (repeat' split) <;> try simp
    exact gets_beginEnqueue rfl
  | newReference | referenceInfo | clearReference | cloneReference | refersTo | dropReference
  | sameReference | poll | remove | queueInfo | dropQueue =>
    simp only [perform, withEngine, withObject, withReference, withQueue, performCloneReference,
      performDropReference]
    (repeat' split) <;> simp
  | _ =>
    simp only [perform, withEngine, withObject, withAgent, withAttachment, World.call, suspendTasks,
      resumeTasks, performDropEngine, performBuild, performDropRoots, performRegisterAgent,
      performDropAgent, controlCall]
    (repeat' split) <;> simp [retainAgent]

end Instructions

end World

end ManagedHeap
