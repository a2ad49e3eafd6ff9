import ManagedHeap.Machine.Schedule
import Mathlib.Algebra.BigOperators.Group.Multiset.Basic
import Mathlib.Tactic.Abel

/-!
# Who owns what

**Input.**  A world between two steps, or in the middle of one.

**Algorithm.**  Roots, handles, finalizers and their jobs, and the duty to put a claimed reference
on its queue have one owner at a time: a name, a queue, a channel, a task, or the value of a call
that a later task of the same thread takes.  Which value a stack of tasks waits for is computed from
its end.

**Results.**  `Task.assets` and `need`; the part of a world that matters to owners, `World.core`,
and how the ways to change a world change it.  While thread `t` acts, the core is looked at with the
value of its last call taken out (`World.openCore`).
-/

namespace ManagedHeap

variable {m n : Need} {x : Runtime}

section Arrays

variable {α β : Type} {a : Array α} {i : Nat} {f : α → α}

theorem map_modify (h : ∀ x, g (f x) = k (g x)) : (a.modify i f).map g = (a.map g).modify i k := by
  apply Array.ext_getElem?
  intro j
  simp only [Array.getElem?_map, Array.getElem?_modify]
  split
  · cases a[j]? <;> simp [h]
  · rfl

theorem modify_modify : (a.modify i f).modify i g = a.modify i fun x => g (f x) := by
  apply Array.ext_getElem?
  intro j
  simp only [Array.getElem?_modify]
  split
  · cases a[j]? <;> rfl
  · rfl

theorem modify_congr (h : ∀ x, a[i]? = some x → f x = g x) : a.modify i f = a.modify i g := by
  apply Array.ext_getElem?
  intro j
  simp only [Array.getElem?_modify]
  split
  · next hij =>
      subst hij
      cases hx : a[i]? with
      | none => rfl
      | some x => simp [h x hx]
  · rfl

theorem modify_eq_self (h : ∀ x, a[i]? = some x → f x = x) : a.modify i f = a := by
  apply Array.ext_getElem?
  intro j
  rw [Array.getElem?_modify]
  split
  · next hij =>
      subst hij
      cases hx : a[i]? with
      | none => rfl
      | some x => simp [h x hx]
  · rfl

def total (a : Array α) (g : α → Multiset β) : Multiset β := (a.toList.map g).sum

theorem total_push (a : Array α) (x : α) (g : α → Multiset β) :
    total (a.push x) g = total a g + g x := by
  simp [total]

theorem exists_total_modify {x : α} (h : a[i]? = some x) (f : α → α) (g : α → Multiset β) :
    ∃ rest, total a g = g x + rest ∧ total (a.modify i f) g = g (f x) + rest := by
  have hi : i < a.toList.length := by simpa using (Array.getElem?_eq_some_iff.mp h).1
  obtain ⟨l₁, y, l₂, hl, hlen, hm⟩ := List.exists_of_modify f hi
  have hy : y = x := by
    have hget : a.toList[i]? = some x := by simpa using h
    rw [hl, ← hlen] at hget
    simpa using hget
  subst hy
  refine ⟨(l₁.map g).sum + (l₂.map g).sum, ?_, ?_⟩
  · rw [total, hl]
    simp only [List.map_append, List.map_cons, List.sum_append, List.sum_cons]
    abel
  · rw [total, Array.toList_modify, hm]
    simp only [List.map_append, List.map_cons, List.sum_append, List.sum_cons]
    abel

theorem mem_total : b ∈ total a g ↔ ∃ x ∈ a, b ∈ g x := by
  rcases a with ⟨l⟩
  simp only [total, List.mem_toArray]
  induction l with
  | nil => simp
  | cons x l ih => simp [ih]

end Arrays

/-- What has exactly one owner. -/
inductive Asset where
  | root (r : Root)
  | handle (h : Handle)
  /-- The handle that a list of pending references has. -/
  | pending (h : Handle)
  /-- The duty to put a reference on its queue. -/
  | claim (queue : Nat) (h : Handle)
  | job (j : Job Finalizer)
  /-- A finalizer that no object has. -/
  | closure (f : Finalizer)

/-- Which value of a call a stack of tasks takes over. -/
inductive Need where
  | nothing
  | object
  | entry
  deriving DecidableEq

/-- What a task does with the value of the last call. -/
inductive Role where
  /-- Nobody takes it over, before or after. -/
  | plain
  /-- Leaves it as it is. -/
  | neutral
  | gives (n : Need)
  | takes (n : Need)
  deriving DecidableEq

/-- What a task needs if what follows it needs this. -/
def Role.before : Role → Need → Option Need
  | .plain, n => if n = .nothing then some .nothing else none
  | .neutral, n => some n
  | .gives k, n => if n = k then some .nothing else none
  | .takes k, n => if n = .nothing then some k else none

theorem Role.before_plain (h : Role.plain.before n = some m) : n = .nothing ∧ m = .nothing := by
  simp only [before] at h
  split at h <;> cases h
  next hn => exact ⟨hn, rfl⟩

theorem Role.before_gives (h : (Role.gives k).before n = some m) : n = k ∧ m = .nothing := by
  simp only [before] at h
  split at h <;> cases h
  next hn => exact ⟨hn, rfl⟩

theorem Role.before_takes (h : (Role.takes k).before n = some m) : n = .nothing ∧ m = k := by
  simp only [before] at h
  split at h <;> cases h
  next hn => exact ⟨hn, rfl⟩

/-- What a value hands over to a stack that needs it. -/
def Need.value : Need → Reply → List Asset
  | .object, .object (some r) => [.root r]
  | .entry, .entry (some h) => [.handle h]
  | _, _ => []

@[simp]
theorem Need.value_nothing (r : Reply) : Need.nothing.value r = [] := by
  cases r <;> rfl

@[simp]
theorem Need.value_unit (n : Need) : n.value .unit = [] := by
  cases n <;> rfl

/-- The role of what is still to do with a value. -/
def Finish.role : Finish → Role
  | .object _ | .foreignObject .. => .takes .object
  | .entry _ => .takes .entry
  | _ => .plain

namespace Task

def assets : Task → List Asset
  | .blocking _ inner => inner.assets
  | .dropFinalizers fs => fs.map .closure
  | .enqueuePending e pending jobs _ => pending.map (fun i => .pending ⟨e, i⟩) ++ jobs.map .job
  | .schedule _ jobs _ | .enrol _ jobs _ | .send _ jobs _ => jobs.map .job
  | .allocate _ r | .attempt _ r | .retry _ r _ _ => r.finalizer.toList.map .closure
  | .pushQueue q h => [.claim q h]
  | .releaseReference h | .finishRemoval _ h => [.handle h]
  | .runJob _ j | .body _ j _ _ | .bodyResumes _ j _ _ => [.job j]
  | .dropHeld roots => roots.map .root
  | .dropRoot r => [.root r]
  | .discardJobs _ jobs _ | .dropJobs jobs => jobs.map .job
  | .chain _ _ _ _ previous _ | .chainNext _ _ _ _ previous _ => previous.toList.map .root
  | _ => []

/-- What a task does with the value of the last call. -/
def role : Task → Role
  | .blocking _ inner => inner.role
  | .finish f | .conclude _ f => f.role
  | .garbageNext .. | .chainNext .. | .keepObject _ => .takes .object
  | .allocate .. | .attempt .. | .retry .. => .gives .object
  | .pollQueue _ | .waitOnQueue .. | .awaitEntry .. | .finishRemoval .. => .gives .entry
  | .setBlocker _ | .endRegion | .dropFinalizers _ | .dropHeld _ => .neutral
  | .registry _ (.leaveBlocking ..) | .registry _ (.parked ..) => .neutral
  | _ => .plain

end Task

/-- What tasks need if what follows them needs this; `none` if they do not fit together. -/
def needs : List Task → Need → Option Need
  | [], n => some n
  | task :: rest, n => (needs rest n).bind task.role.before

theorem needs_append (first second : List Task) (n : Need) :
    needs (first ++ second) n = (needs second n).bind (needs first) := by
  induction first with
  | nil => cases h : needs second n <;> simp [needs, h]
  | cons task rest ih =>
    rw [List.cons_append, needs, ih, Option.bind_assoc]
    rfl

def need (tasks : List Task) : Option Need := needs tasks .nothing

def Message.assets (m : Message Finalizer) : List Asset := (World.jobsOf m).map .job

/-- An engine as owners see it. -/
structure Cell where
  heap : Heap Finalizer
  channel : List (Message Finalizer)

/-- A queue as owners see it. -/
structure Line where
  entries : List Handle
  enqueued : Nat

/-- A thread as owners see it. -/
structure Stack where
  tasks : List Task
  reply : Reply

/-- The names that own something, and the queues that have a name. -/
structure Bindings where
  objects : Table Root
  foreignObjects : Table Root
  references : Table Handle
  foreignReferences : Table Handle
  queues : Table Nat

/-- A world as owners see it. -/
structure Core where
  cells : Array Cell
  lines : Array Line
  threads : Array Stack
  bindings : Bindings

namespace Bindings

def assets (b : Bindings) : Multiset Asset :=
  ↑(b.objects.map fun x => Asset.root x.2) + ↑(b.foreignObjects.map fun x => Asset.root x.2) +
    (↑(b.references.map fun x => Asset.handle x.2) +
    ↑(b.foreignReferences.map fun x => Asset.handle x.2))

end Bindings

namespace Stack

/-- What a thread owns: by its tasks, and by the value that they take over. -/
def assets (s : Stack) : Multiset Asset :=
  ↑(s.tasks.flatMap Task.assets) +
    match need s.tasks with
    | some n => n.value s.reply
    | none => 0

theorem assets_eq {tasks : List Task} (hn : need tasks = some n) (reply : Reply) :
    (⟨tasks, reply⟩ : Stack).assets = ↑(tasks.flatMap Task.assets) + ↑(n.value reply) := by
  simp only [assets, hn]

@[simp]
theorem assets_nil (reply : Reply) : (⟨[], reply⟩ : Stack).assets = 0 := by
  rfl

end Stack

namespace Core

def heaps (c : Core) : Array (Heap Finalizer) := c.cells.map Cell.heap

def channels (c : Core) : Array (List (Message Finalizer)) := c.cells.map Cell.channel

/-- Everything that is owned, except what the finalizers of objects own. -/
def assets (c : Core) : Multiset Asset :=
  c.bindings.assets + total c.lines (fun x => x.entries.map Asset.handle) +
    (total c.channels (fun x => x.flatMap Message.assets) + total c.threads Stack.assets)

def modifyHeap (c : Core) (e : Nat) (f : Heap Finalizer → Heap Finalizer) : Core :=
  { c with cells := c.cells.modify e fun x => { x with heap := f x.heap } }

def setChannel (c : Core) (e : Nat) (messages : List (Message Finalizer)) : Core :=
  { c with cells := c.cells.modify e fun x => { x with channel := messages } }

def modifyLine (c : Core) (q : Nat) (f : Line → Line) : Core :=
  { c with lines := c.lines.modify q f }

def push (c : Core) (t : Nat) (tasks : List Task) : Core :=
  { c with threads := c.threads.modify t fun s => { s with tasks := tasks ++ s.tasks } }

def setStack (c : Core) (t : Nat) (s : Stack) : Core :=
  { c with threads := c.threads.modify t fun _ => s }

def mute (c : Core) (t : Nat) : Core :=
  { c with threads := c.threads.modify t fun s => { s with reply := .unit } }

def needAt (c : Core) (t : Nat) : Option Need := (c.threads[t]?).bind fun s => need s.tasks

def reference? (c : Core) (h : Handle) : Option Reference :=
  (c.heaps[h.heap]?).bind fun x => x.references[h.position]?

end Core

def Engine.cell (x : Runtime) : Cell := ⟨x.heap, x.finalization.channel⟩

/-- Starting an engine hires its finalizer thread, if it has one that nobody has hired, and changes
nothing else. -/
theorem Engine.eq_of_start (h : x.start = .ok (started, records)) :
    (x.settings.finalizerEnabled = true ∧ x.finalization.receiver = .unclaimed ∧ started = { x with
      finalization :=
        { x.finalization with receiver := .claimed, joinable := true, running := true }
      state := .running }) ∨
          (x.settings.finalizerEnabled = false ∧ started = { x with state := .running }) := by
  unfold Engine.start at h
  split at h
  · cases h
  · dsimp only at h
    split at h
    · next henabled =>
        split at h <;> cases h
        next f hf =>
          unfold Finalization.start at hf
          split at hf <;> cases hf
          next hunclaimed => exact .inl ⟨henabled, hunclaimed, rfl⟩
    · next hdisabled =>
        cases h
        exact .inr ⟨by simpa using hdisabled, rfl⟩

def Queue.line (q : Queue) : Line := ⟨q.entries, q.enqueued⟩

def Thread.stack (x : Thread) : Stack := ⟨x.tasks, x.reply⟩

/-- The names that own something, and the queues that have a name. -/
def Names.bindings (n : Names) : Bindings where
  objects := n.objects
  foreignObjects := n.foreignObjects
  references := n.references
  foreignReferences := n.foreignReferences
  queues := n.queues

def World.core (w : World) : Core where
  cells := w.engines.map Engine.cell
  lines := w.queues.map Queue.line
  threads := w.threads.map Thread.stack
  bindings := w.names.bindings

/-- A world as owners see it while a thread acts. -/
def World.openCore (w : World) (t : Nat) : Core := w.core.mute t

namespace World

variable {w : World} {t e : Nat}

section Threads

@[simp]
theorem openCore_push (tasks : List Task) :
    (w.push t tasks).openCore t = (w.openCore t).push t tasks := by
  unfold openCore core push modifyThread Core.mute Core.push
  congr 1
  have hmap : (w.threads.modify t fun x => { x with tasks := tasks ++ x.tasks }).map Thread.stack =
      (w.threads.map Thread.stack).modify t fun s => { s with tasks := tasks ++ s.tasks } :=
    map_modify fun _ => rfl
  simp only [hmap, modify_modify]

theorem openCore_modifyThread (h : ∀ x, (f x).tasks = x.tasks) :
    (w.modifyThread t f).openCore t = w.openCore t := by
  unfold openCore core modifyThread Core.mute
  congr 1
  apply Array.ext_getElem?
  intro j
  simp only [Array.getElem?_modify, Array.getElem?_map]
  split
  · cases w.threads[j]? with
    | none => rfl
    | some x => simp [Thread.stack, h x]
  · rfl

@[simp]
theorem openCore_answer (r : Reply) : (w.answer t r).openCore t = w.openCore t :=
  openCore_modifyThread fun _ => rfl

@[simp]
theorem openCore_setRegion (b : Bool) : (w.setRegion t b).openCore t = w.openCore t :=
  openCore_modifyThread fun _ => rfl

@[simp]
theorem openCore_forget : (w.forget t).openCore t = w.openCore t :=
  openCore_modifyThread fun _ => rfl

@[simp]
theorem openCore_leaveScope : (w.leaveScope t).openCore t = w.openCore t :=
  openCore_modifyThread fun _ => rfl

theorem openCore_spawn (ht : t ≠ w.threads.size) (x : Thread) : (w.spawn x).2.openCore t =
      { w.openCore t with threads := (w.openCore t).threads.push x.stack } := by
  unfold openCore core spawn Core.mute
  congr 1
  apply Array.ext_getElem?
  intro j
  simp only [Array.getElem?_modify, Array.getElem?_push, Array.map_push, Array.size_map,
    Array.size_modify]
  by_cases hj : j = w.threads.size
  · rw [if_pos hj, if_neg (by rwa [hj]), if_pos hj]
  · simp [hj]

theorem openCore_of_size_le (h : w.threads.size ≤ t) : w.openCore t = w.core := by
  unfold openCore Core.mute
  rw [modify_eq_self fun s hs => ?_]
  have hlt := (Array.getElem?_eq_some_iff.mp hs).1
  simp only [core, Array.size_map] at hlt
  omega

theorem getElem?_threads (j : Nat) : (w.openCore t).threads[j]? =
      (w.threads[j]?).map fun x => if t = j then ⟨x.tasks, .unit⟩ else x.stack := by
  unfold openCore core Core.mute
  simp only [Array.getElem?_modify, Array.getElem?_map]
  split
  · cases w.threads[j]? <;> rfl
  · cases w.threads[j]? <;> rfl

end Threads

section Engines

variable {f : Runtime → Runtime}

theorem openCore_modifyEngine (g : Cell → Cell) (h : ∀ x, (f x).cell = g x.cell) :
    (w.modifyEngine e f).openCore t =
      { w.openCore t with cells := (w.openCore t).cells.modify e g } := by
  unfold openCore core modifyEngine Core.mute
  congr 1
  exact map_modify h

theorem openCore_modifyEngine_of_cell (h : ∀ x, (f x).cell = x.cell) :
    (w.modifyEngine e f).openCore t = w.openCore t := by
  rw [openCore_modifyEngine (fun x => x) h, modify_eq_self fun _ _ => rfl]

theorem openCore_modifyEngine_of_same
    (h : ∀ x, (f x).heap = x.heap ∧ (f x).finalization = x.finalization) :
    (w.modifyEngine e f).openCore t = w.openCore t :=
  openCore_modifyEngine_of_cell fun x => by rw [Engine.cell, (h x).1, (h x).2, Engine.cell]

@[simp]
theorem openCore_modifyHeap (f : Heap Finalizer → Heap Finalizer) :
    (w.modifyHeap e f).openCore t = (w.openCore t).modifyHeap e f :=
  openCore_modifyEngine (fun x => { x with heap := f x.heap }) fun _ => rfl

@[simp]
theorem openCore_modifyRegistry (f : Registry → Registry) :
    (w.modifyRegistry e f).openCore t = w.openCore t :=
  openCore_modifyEngine_of_cell fun _ => rfl

@[simp]
theorem openCore_modifyCollector (f : Collector → Collector) :
    (w.modifyCollector e f).openCore t = w.openCore t :=
  openCore_modifyEngine_of_cell fun _ => rfl

@[simp]
theorem openCore_modifyStatistics (f : Statistics → Statistics) :
    (w.modifyStatistics e f).openCore t = w.openCore t :=
  openCore_modifyEngine_of_cell fun _ => rfl

@[simp]
theorem openCore_retainEngine : (w.retainEngine e).openCore t = w.openCore t :=
  openCore_modifyEngine_of_cell fun _ => rfl

@[simp]
theorem openCore_setPhase (p : Phase) : (w.setPhase e p).openCore t = w.openCore t :=
  openCore_modifyCollector _

theorem openCore_modifyFinalization_of_channel {f : Finalization Finalizer → Finalization Finalizer}
    (h : ∀ x, (f x).channel = x.channel) : (w.modifyFinalization e f).openCore t = w.openCore t :=
  openCore_modifyEngine_of_cell fun x => by simp [Engine.cell, h x.finalization]

theorem getElem?_cells (j : Nat) : (w.openCore t).cells[j]? = (w.engines[j]?).map Engine.cell :=
  Array.getElem?_map

variable (hx : w.engines[e]? = some x)

include hx

theorem openCore_modifyFinalization {f : Finalization Finalizer → Finalization Finalizer} :
    (w.modifyFinalization e f).openCore t =
      (w.openCore t).setChannel e (f x.finalization).channel := by
  unfold openCore core modifyFinalization modifyEngine Core.mute Core.setChannel
  congr 1
  apply Array.ext_getElem?
  intro j
  simp only [Array.getElem?_modify, Array.getElem?_map]
  split
  · next hij =>
      subst hij
      simp [hx, Engine.cell]
  · rfl

theorem openCore_setFinalization {f : Finalization Finalizer}
    (hf : f.channel = x.finalization.channel) :
    (w.modifyFinalization e fun _ => f).openCore t = w.openCore t := by
  rw [openCore_modifyFinalization hx, hf]
  unfold Core.setChannel
  rw [modify_eq_self]
  intro c hc
  rw [getElem?_cells, hx] at hc
  cases hc
  rfl

theorem openCore_setHeap {f : Heap Finalizer → Heap Finalizer} :
    (w.modifyHeap e fun _ => f x.heap).openCore t = (w.openCore t).modifyHeap e f := by
  rw [openCore_modifyHeap]
  unfold Core.modifyHeap
  congr 1
  refine modify_congr fun c hc => ?_
  rw [getElem?_cells, hx] at hc
  cases hc
  rfl

end Engines

section Outputs

@[simp]
theorem openCore_mk (gates : List String) (handles : List AgentHandle) (next : Nat)
    (first : Option Nat) (held : Bool) (output : Output) : openCore ⟨w.engines, w.queues, w.threads,
      gates, w.names, handles, next, first, held, output⟩ t = w.openCore t :=
  (rfl)

@[simp]
theorem openCore_names (lastObjects : Table ObjectId) (agents : Table AgentHandle)
    (engines threads foreign : Table Nat) :
    openCore { w with names := { w.names with
      lastObjects := lastObjects, agents := agents, engines := engines, threads := threads,
      foreignEngines := foreign } } t = w.openCore t :=
  (rfl)

@[simp]
theorem openCore_report (records : List LogRecord) : (w.report records).openCore t = w.openCore t :=
  (rfl)

@[simp]
theorem openCore_note (n : FinalizerNote) : (w.note n).openCore t = w.openCore t := (rfl)

@[simp]
theorem openCore_log (event : Event) : (w.log e event).openCore t = w.openCore t := by
  unfold log
  split
  · rfl
  · next x _ =>
      show (w.modifyEngine e fun y => { y with journal := (x.journal.log event).1 }).openCore t = _
      exact openCore_modifyEngine_of_cell fun _ => rfl

@[simp]
theorem openCore_complete (a : Answer) : (w.complete t a).openCore t = w.openCore t := by
  unfold complete
  split
  · rfl
  · show (w.modifyThread t fun x => { x with instruction := none }).openCore t = _
    exact openCore_modifyThread fun _ => rfl

@[simp]
theorem openCore_refuse (r : Refusal) : (w.refuse t r).openCore t = w.openCore t :=
  openCore_complete _

@[simp]
theorem openCore_retainAgent (a : AgentHandle) : (w.retainAgent a).openCore t = w.openCore t :=
  (rfl)

@[simp]
theorem openCore_releaseAgent (a : AgentHandle) : (w.releaseAgent a).openCore t = w.openCore t := by
  simp only [releaseAgent]
  split
  · rfl
  · exact openCore_modifyEngine_of_cell fun _ => rfl

end Outputs

section Queues

theorem openCore_modifyQueue (g : Line → Line) (h : ∀ x, (f x).line = g x.line) :
    (w.modifyQueue q f).openCore t = (w.openCore t).modifyLine q g := by
  unfold openCore core modifyQueue Core.mute Core.modifyLine
  congr 1
  exact map_modify h

theorem openCore_modifyQueue_of_line (h : ∀ x, (f x).line = x.line) :
    (w.modifyQueue q f).openCore t = w.openCore t := by
  rw [openCore_modifyQueue (fun x => x) h, Core.modifyLine, modify_eq_self fun _ _ => rfl]

theorem getElem?_lines (j : Nat) : (w.openCore t).lines[j]? = (w.queues[j]?).map Queue.line :=
  Array.getElem?_map

end Queues

end World

end ManagedHeap
