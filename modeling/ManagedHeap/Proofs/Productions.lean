import ManagedHeap.Proofs.Delivery

/-!
# Productions

**Input.**  A task that a thread has taken off its stack.

**Algorithm.**  A stack is rewritten at its head, as a word is by a grammar: in the place of a task
come the tasks that it leaves, and it may answer the call that it is part of.  Few tasks change what
an engine shows to everybody: its collector, its agents, its finalizer thread, the number of its
pending finalizers and those who wait for them.

**Results.**  `Task.Produces` has one production for each way in which a task can end.
`World.floor` is what they act on, and most of what a task does does not show there.
-/

namespace ManagedHeap

variable {g : Board → Board}

section Boards

variable {b' : Board}

/-- How many finalizers were run or dropped, as statistics count them. -/
def Statistics.outcomes (s : Statistics) : Nat :=
  (s.finalizersCompleted + s.finalizersPanicked + s.finalizersDiscarded) % Numeral.wordLimit

def Statistics.collections (s : Statistics) : Statistics :=
  { s with
    finalizersScheduled := 0, finalizersCompleted := 0, finalizersPanicked :=
      0, finalizersDiscarded := 0
    pauses := .empty, safepointWaits := .empty }

/-- What an engine shows of its finalizer thread. -/
structure Post where
  /-- Whether finalizers run when the engine stops. -/
  runsOnExit : Bool
  receiver : Receiver
  joinable : Bool
  channel : List (Message Finalizer)

/-- What an engine shows of its finalizer thread. -/
def Engine.post (x : Runtime) : Post where
  runsOnExit := x.settings.runFinalizersOnExit
  receiver := x.finalization.receiver
  joinable := x.finalization.joinable
  channel := x.finalization.channel

def Post.hired (p : Post) : Post := { p with receiver := .claimed, joinable := true }

/-- What an engine shows to everybody. -/
structure Board where
  post : Post
  collector : Collector
  agents : List (Agent Listener)
  nextAgent : Nat
  /-- Finalizers scheduled and neither run nor dropped. -/
  pending : Nat
  /-- Threads that sleep until a finalizer is done. -/
  sleepers : List Nat
  /-- Finalizers that were run or dropped, as statistics count them. -/
  outcomes : Nat
  /-- What statistics count of collections, unless they are off. -/
  collections : Option Statistics
  /-- Calls of agents that were counted. -/
  delivered : Nat

def Engine.board (x : Runtime) : Board where
  post := x.post
  collector := x.collector
  agents := x.agents.registered
  nextAgent := x.agents.nextId
  pending := x.finalization.pending
  sleepers := x.finalization.awaitingDrain
  outcomes := x.statistics.outcomes
  collections := if x.settings.statsEnabled then some x.statistics.collections else none
  delivered := x.agents.delivered

namespace Board

def fresh (s : Settings) : Board :=
  ⟨⟨s.runFinalizersOnExit, .unclaimed, false, []⟩, {}, [], 1, 0, [], 0,
    if s.statsEnabled then some {} else none, 0⟩

def lock (t : Nat) (b : Board) : Board :=
  { b with collector := { b.collector with owner := some t } }

def unlock (b : Board) : Board := { b with collector := { b.collector with owner := none } }

def setPhase (p : Phase) (b : Board) : Board :=
  { b with collector := { b.collector with phase := p } }

def finish (r : Report) (b : Board) : Board :=
  { b with
    collector := { b.collector with cycles := r.cycle }
    collections := b.collections.map fun s => (s.recordCollection r).collections }

def enrol (n : Nat) (b : Board) : Board := { b with pending := b.pending + n }

def retire (n : Nat) (b : Board) : Board := { b with pending := b.pending - n }

def announce (b : Board) : Board := { b with sleepers := [] }

def send (m : Message Finalizer) (b : Board) : Board :=
  { b with post := { b.post with channel := b.post.channel ++ [m] } }

def take (b : Board) : Board := { b with post := { b.post with channel := b.post.channel.tail } }

def close (b : Board) : Board :=
  { b with post := { b.post with receiver := .closed, channel := [] } }

/-- A call to stop takes the receiving end that nobody has. -/
def claim (b : Board) : Board := { b with post := { b.post with receiver := .claimed } }

/-- A call to stop asks the finalizer thread to leave, if it can still hear that. -/
def ask (b : Board) : Board :=
  { b with post := { b.post with
    joinable := false
    channel := if b.post.receiver = .closed then b.post.channel
        else b.post.channel ++ [.shutdown b.post.runsOnExit] } }

def hire (b : Board) : Board := { b with post := b.post.hired }

def count (n : Nat) (b : Board) : Board :=
  { b with outcomes := (b.outcomes + n) % Numeral.wordLimit }

def countDelivery (b : Board) : Board := { b with delivered := b.delivered + 1 }

def reset (b : Board) : Board :=
  { b with outcomes := 0, collections := b.collections.map fun _ => {} }

def wake (t : Nat) (b : Board) : Board := { b with sleepers := b.sleepers.filter (· != t) }

def sleep (t : Nat) (b : Board) : Board := { b with sleepers := b.sleepers.filter (· != t) ++ [t] }

def register (c : Capabilities) (l : Listener) (b : Board) : Board :=
  { b with agents := b.agents ++ [⟨b.nextAgent, c, l⟩], nextAgent := b.nextAgent + 1 }

def resign (id : Nat) (b : Board) : Board := { b with agents := b.agents.filter (·.id != id) }

/-- What an instruction can do to what an engine shows, if it may reset that, or may not. -/
inductive Opens (R : Prop) (b : Board) : Board → Prop
  | registers (c : Capabilities) (l : Listener) : Opens R b (b.register c l)
  | resigns (id : Nat) : Opens R b (b.resign id)
  | resets (h : R) : Opens R b b.reset
  | hires : Opens R b b.hire

/-- Several of these things, one after the other. -/
abbrev Grows (R : Prop) : Board → Board → Prop := Relation.ReflTransGen (Opens R)

theorem Grows.same {R : Prop} {b : Board} (h : b.Grows R b') :
    b'.collector = b.collector ∧ b'.pending = b.pending ∧ b'.sleepers = b.sleepers := by
  induction h with
  | refl => exact ⟨rfl, rfl, rfl⟩
  | tail _ opens ih => cases opens <;> exact ih

end Board

abbrev Notch := Option (Nat × (Board → Board))

abbrev Notch.on (c : Notch) (e : Nat) (b : Board) : Board :=
  c.elim b fun c => if c.1 = e then c.2 b else b

theorem Notch.on_eq {β : Type} {p : Board → β} {c : Notch} {e : Nat}
    (h : ∀ g, c = some (e, g) → ∀ b, p (g b) = p b) (b : Board) : p (c.on e b) = p b := by
  cases c with
  | none => rfl
  | some c =>
    show p (if c.1 = e then c.2 b else b) = _
    split
    · next he => exact h c.2 (by rw [← he]) b
    · rfl

/-- The stacks of all threads, what all engines show, the agents that the program has names for, and
perhaps what listeners have written down. -/
structure Floor where
  threads : Array Stack
  boards : Array Board
  agents : Table AgentHandle
  notices : List (String × Notice)

namespace Floor

def turn (t : Nat) (tasks : List Task) (answer : Option Reply) (f : Floor) : Floor :=
  { f with threads := f.threads.modify t fun s => ⟨tasks ++ s.tasks, answer.getD s.reply⟩ }

def put (t : Nat) (s : Stack) (f : Floor) : Floor :=
  { f with threads := f.threads.modify t fun _ => s }

def modifyBoard (e : Nat) (g : Board → Board) (f : Floor) : Floor :=
  { f with boards := f.boards.modify e g }

def alter (c : Notch) (f : Floor) : Floor := c.elim f fun c => f.modifyBoard c.1 c.2

variable {f : Floor} {t e : Nat}

@[simp]
theorem turn_turn (first second : List Task) (a b : Option Reply) :
    (f.turn t first a).turn t second b = f.turn t (second ++ first) (b.or a) := by
  unfold turn
  dsimp only
  rw [modify_modify]
  congr 2
  funext s
  cases b <;> simp

@[simp]
theorem turn_nil : f.turn t [] none = f := by
  have hsame : f.threads.modify t (fun s => ⟨[] ++ s.tasks, (none : Option Reply).getD s.reply⟩) =
      f.threads := modify_eq_self fun _ _ => rfl
  unfold turn
  rw [hsame]

@[simp]
theorem turn_put (tasks rest : List Task) (a : Option Reply) (r : Reply) :
    (f.put t ⟨rest, r⟩).turn t tasks a = f.put t ⟨tasks ++ rest, a.getD r⟩ := by
  unfold turn put
  dsimp only
  rw [modify_modify]

@[simp]
theorem turn_modifyBoard (g : Board → Board) (tasks : List Task) (a : Option Reply) :
    (f.modifyBoard e g).turn t tasks a = (f.turn t tasks a).modifyBoard e g := rfl

@[simp]
theorem modifyBoard_modifyBoard (g k : Board → Board) :
    (f.modifyBoard e g).modifyBoard e k = f.modifyBoard e fun b => k (g b) := by
  unfold modifyBoard
  dsimp only
  rw [modify_modify]

@[simp]
theorem alter_none : f.alter none = f := rfl

@[simp]
theorem alter_some (g : Board → Board) : f.alter (some (e, g)) = f.modifyBoard e g := rfl

/-- What an instruction can do besides giving tasks to its thread, if it may reset what some engines
show. -/
inductive Opens (R : Nat → Prop) (f : Floor) : Floor → Prop
  | registers {e : Nat} (he : e < f.boards.size) (c : Capabilities)
      (l : Listener) (label : String) (id : Nat) :
      Opens R f { f.modifyBoard e (.register c l) with agents := f.agents.insert label ⟨e, id, c⟩ }
  | drops (label : String) : Opens R f { f with agents := f.agents.erase label }
  | resigns (e id : Nat) : Opens R f (f.modifyBoard e (.resign id))
  | resets {e : Nat} (he : R e) : Opens R f (f.modifyBoard e .reset)
  | makes (s : Settings) : Opens R f { f with boards := f.boards.push (.fresh s) }
  | hires {e : Nat} {b : Board} (hb : f.boards[e]? = some b) (h : b.post.receiver = .unclaimed) :
      Opens R f { f.modifyBoard e .hire with threads := f.threads.push ⟨[.serve e], .unit⟩ }

/-- Several of these things, one after the other. -/
abbrev Grows (R : Nat → Prop) : Floor → Floor → Prop := Relation.ReflTransGen (Opens R)

variable {f' : Floor} {s : Stack} {R : Nat → Prop}

/-- Threads that are there keep their stacks, and those that are hired begin to serve. -/
theorem Grows.threads (h : f.Grows R f') (u : Nat) : f'.threads[u]? = f.threads[u]? ∨
    (f.threads[u]? = none ∧ ∃ e, f'.threads[u]? = some ⟨[.serve e], .unit⟩) := by
  induction h with
  | refl => exact .inl rfl
  | @tail g g' _ opens ih =>
    cases opens with
    | registers | drops | resigns | resets | makes => exact ih
    | @hires e =>
      rcases ih with hsame | ⟨hnone, e', hnew⟩
      · by_cases hu : u = g.threads.size
        · subst hu
          refine .inr ⟨by rw [← hsame]; exact Array.getElem?_eq_none le_rfl, e, ?_⟩
          simp
        · refine .inl ?_
          rw [← hsame]
          simp [Array.getElem?_push, hu]
      · refine .inr ⟨hnone, e', ?_⟩
        have hlt := (Array.getElem?_eq_some_iff.mp hnew).1
        simp only [Array.getElem?_push, Nat.ne_of_lt hlt, if_false]
        exact hnew

theorem Grows.threads_of_some (h : f.Grows R f') (hs : f.threads[t]? = some s) :
    f'.threads[t]? = some s := by
  rcases h.threads t with hsame | ⟨hnone, -⟩
  · rw [hsame, hs]
  · rw [hs] at hnone
    cases hnone

theorem put_eq_turn (hs : f.threads[t]? = some ⟨rest, r⟩) (tasks : List Task)
    (a : Option Reply) : f.turn t tasks a = f.put t ⟨tasks ++ rest, a.getD r⟩ := by
  unfold turn put
  rw [modify_congr fun s hs' => ?_]
  rw [hs] at hs'
  cases hs'
  rfl

theorem getElem?_put_self (hs : f.threads[t]? = some s) (s' : Stack) :
    (f.put t s').threads[t]? = some s' := by
  unfold put
  rw [Array.getElem?_modify, if_pos rfl, hs]
  rfl

theorem getElem?_put_of_ne (hu : u ≠ t) (s' : Stack) :
    (f.put t s').threads[u]? = f.threads[u]? := by
  unfold put
  rw [Array.getElem?_modify, if_neg (Ne.symm hu)]

@[simp]
theorem threads_alter (c : Notch) : (f.alter c).threads = f.threads := by
  cases c <;> rfl

@[simp]
theorem boards_put (s' : Stack) : (f.put t s').boards = f.boards := rfl

@[simp]
theorem size_boards_alter (c : Notch) : (f.alter c).boards.size = f.boards.size := by
  cases c with
  | none => rfl
  | some c => rw [alter_some, modifyBoard, Array.size_modify]

theorem boards_alter (c : Notch) : (f.alter c).boards[e]? = (f.boards[e]?).map (c.on e) := by
  unfold Notch.on
  cases c with
  | none => simp
  | some c =>
    rw [alter_some, modifyBoard, Array.getElem?_modify]
    split
    · next h => simp [h]
    · next h => simp [h]

theorem Grows.size_boards_le (h : f.Grows R f') : f.boards.size ≤ f'.boards.size := by
  induction h with
  | refl => exact le_rfl
  | tail _ opens ih =>
    cases opens with
    | registers | resigns | resets | hires =>
      refine ih.trans (le_of_eq ?_)
      rw [modifyBoard, Array.size_modify]
    | makes => exact ih.trans (by rw [Array.size_push]; exact Nat.le_succ _)
    | drops => exact ih

theorem boards_modifyBoard (h : (f.modifyBoard k g).boards[e]? = some b') :
    ∃ b, f.boards[e]? = some b ∧ (b' = b ∨ k = e ∧ b' = g b) := by
  rw [modifyBoard, Array.getElem?_modify] at h
  split at h
  · next hk =>
      obtain ⟨b, hb, rfl⟩ := Option.map_eq_some_iff.mp h
      exact ⟨b, hb, .inr ⟨hk, rfl⟩⟩
  · exact ⟨b', h, .inl rfl⟩

theorem Grows.board (h : f.Grows R f') (hb' : f'.boards[e]? = some b') :
    (∃ b, f.boards[e]? = some b ∧ b.Grows (R e) b') ∨
      f.boards[e]? = none ∧ ∃ s, (Board.fresh s).Grows (R e) b' := by
  induction h generalizing b' with
  | refl => exact .inl ⟨b', hb', .refl⟩
  | @tail g g' hgrows opens ih =>
    have alters : ∀ {k change}, (g.modifyBoard k change).boards[e]? = some b' →
        (∀ b, k = e → Board.Opens (R e) b (change b)) →
        (∃ b, f.boards[e]? = some b ∧ b.Grows (R e) b') ∨
          f.boards[e]? = none ∧ ∃ s, (Board.fresh s).Grows (R e) b' := by
      intro k change hb hopens
      obtain ⟨b₁, hb₁, rfl | ⟨hk, rfl⟩⟩ := boards_modifyBoard hb
      · exact ih hb₁
      · rcases ih hb₁ with ⟨b, hb, hb₁⟩ | ⟨hnone, runs, hb₁⟩
        · exact .inl ⟨b, hb, hb₁.tail (hopens b₁ hk)⟩
        · exact .inr ⟨hnone, runs, hb₁.tail (hopens b₁ hk)⟩
    cases opens with
    | registers _ c l => exact alters hb' fun b _ => .registers c l
    | resigns _ id => exact alters hb' fun b _ => .resigns id
    | resets he => exact alters hb' fun b hk => .resets (hk ▸ he)
    | hires => exact alters hb' fun b _ => .hires
    | drops => exact ih hb'
    | makes runs =>
      rw [Array.getElem?_push] at hb'
      split at hb'
      · next he =>
          cases hb'
          refine .inr ⟨Array.getElem?_eq_none ?_, runs, .refl⟩
          rw [he]
          exact Grows.size_boards_le hgrows
      · exact ih hb'

/-- A floor without what listeners have written down. -/
def mute (f : Floor) : Floor := { f with notices := [] }

theorem mute_alter (c : Notch) : (f.alter c).mute = f.mute.alter c := by cases c <;> rfl

theorem Grows.mute (h : f.Grows R f') : f.mute.Grows R f'.mute := by
  induction h with
  | refl => exact .refl
  | @tail g _ _ opens ih =>
    refine ih.tail ?_
    cases opens with
    | registers he c l label id => exact .registers (f := g.mute) he c l label id
    | drops label => exact .drops (f := g.mute) label
    | resigns e id => exact .resigns (f := g.mute) e id
    | resets he => exact .resets (f := g.mute) he
    | makes s => exact .makes (f := g.mute) s
    | hires hb h => exact .hires (f := g.mute) hb h

theorem Grows.notices (h : f.Grows R f') : f'.notices = f.notices := by
  induction h with
  | refl => rfl
  | tail _ opens ih => cases opens <;> exact ih

/-- Whether there are the engines whose agents the program has names for. -/
def Informed (f : Floor) : Prop := ∀ a ∈ f.agents, a.2.engine < f.boards.size

theorem Informed.modifyBoard (h : f.Informed) (g : Board → Board) :
    (f.modifyBoard e g).Informed := by
  intro a ha
  rw [Floor.modifyBoard, Array.size_modify]
  exact h a ha

theorem Informed.alter (h : f.Informed) (c : Notch) : (f.alter c).Informed := by
  cases c with
  | none => exact h
  | some c => exact h.modifyBoard c.2

theorem Grows.informed (h : f.Grows R f') (hf : f.Informed) : f'.Informed := by
  induction h with
  | refl => exact hf
  | tail _ opens ih =>
    cases opens with
    | @registers e he c l label id =>
      intro a ha
      rcases List.mem_cons.mp ha with rfl | hkept
      · rwa [Floor.modifyBoard, Array.size_modify]
      · exact ih.modifyBoard _ a (List.mem_of_mem_filter hkept)
    | drops => exact fun a ha => ih a (List.mem_of_mem_filter ha)
    | resigns | resets | hires => exact ih.modifyBoard _
    | makes =>
      intro a ha
      rw [Array.size_push]
      exact Nat.lt_succ_of_lt (ih a ha)

end Floor

end Boards

/-- A call of an agent of an engine. -/
structure AgentCall where
  engine : Nat
  agent : Agent Listener
  notice : Notice

def AgentCall.note? (c : AgentCall) : Option (String × Notice) :=
  if c.agent.body.listens then some (c.agent.body.label, c.notice) else none

def Task.agentCall? : Task → Option AgentCall
  | .deliver e n (a :: _) => some ⟨e, a, n⟩
  | _ => none

section Kinds

/-- Whether a task bears neither on collections, finalizers and suspensions nor on regions, and
leaves only such tasks. -/
def Task.isSide : Task → Bool
  | .forget | .gate _ | .interrupt .. | .wakeBlocked .. | .wakeQueue _ => true
  | .dropFinalizers _ | .dropHeld _ | .keepObject _ => true
  | .clearReferent _ | .claimActive .. | .claimPending .. | .pushQueue .. | .releaseReference _ =>
    true
  | .pollQueue _ | .waitOnQueue .. | .setBlocker _ | .awaitEntry .. | .finishRemoval .. => true
  | .leaveService _ | .announceExit _ | .shutdownCollected _ | .awaitExit _ | .stopped _ => true
  | _ => false

/-- Whether a task belongs to the program, or is a call that it makes. -/
def Task.isProgram : Task → Bool
  | .garbage .. | .garbageNext .. | .chain .. | .chainNext .. | .conclude .. => true
  | .allocate .. | .releaseEngine _ | .finish _ => true
  | _ => false

/-- Whether a task can stand anywhere in what an instruction begins with. -/
def Task.isOpening : Task → Bool
  | .registry _ (.requestSuspend _) | .registry _ (.parked ..) | .registry _ (.awaitStops _) =>
    false
  | .registry _ (.leaveBlocking _ hold) | .blocking hold (.waitOnQueue ..) => hold = .any
  | .registry .. | .checkpoint _ | .endRegion | .adopt .. | .forget | .interrupt .. => true
  | .repeatSuspend .. | .reply _ | .dropFinalizers _ => true
  | .clearReferent _ | .releaseReference _ | .pollQueue _ => true
  | .collectOpen _ | .stopEngine _ | .releaseAgent _ => true
  | task => task.isProgram

/-- Whether a task can stand in what an instruction begins with. -/
def Task.isFirst : Task → Bool
  | .collect .. | .runFinalization .. | .suspended .. | .resumed ..
  | .registry _ (.requestSuspend _) => true
  | task => task.isOpening

theorem Task.isFirst_of_isOpening {task : Task} (h : task.isOpening = true) :
    task.isFirst = true := by
  cases task with
  | registry e op => cases op <;> first | rfl | exact h
  | _ => first | rfl | exact h

/-- The engine without which a task does nothing. -/
def Task.engine? : Task → Option Nat
  | .registry e _ | .dispatch e _ | .lockCollector e | .beginCycle e _ | .pause e .. => some e
  | .schedule e .. | .finishCycle e _ | .allocate e _ | .attempt e _ => some e
  | .closeChannel e | .runFinalization e _ | .awaitDrain e _ => some e
  | .collectOpen e | .stopEngine e | .claimReceiver e | .releaseEngine e => some e
  | _ => none

def Task.isAllocation : Task → Bool
  | .allocate .. | .attempt .. | .retry .. => true
  | _ => false

end Kinds

/-- The tasks that follow a section of a call on a registry. -/
def Progress.tasks (e : Nat) : Progress → List Task
  | .continues op => [.registry e op]
  | _ => []

/-- What a section of a call on a registry answers. -/
def Progress.answer? : Progress → Option Reply
  | .answered r => some r
  | _ => none

open World (collectTasks suspendTasks resumeTasks afterBody jobsOf)

/-- What a task that thread `t` has taken off its stack leaves there, what it answers, and what it
changes in what an engine shows; the reply is that of the call before.  Instructions are left
out. -/
inductive Task.Produces (engines : Array Runtime) (t : Nat) :
    Task → Reply → List Task → Option Reply → Notch → Prop
  | aside (htask : task.isSide = true)
      (htasks : tasks.all Task.isSide = true) : Produces engines t task r tasks a none
  /-- There is no such engine. -/
  | strays (htask : task.engine? = some e)
      (he : engines[e]? = none) : Produces engines t task r [] none none
  -- safepoints
  | operates {e : Nat} {op : Operation} {r : Reply} {x : Runtime}
      {expired : Bool} {registry : Registry} {p : Progress}
      (hx : engines[e]? = some x) (h : x.registry.step t expired op = some (registry, p)) :
      Produces engines t (.registry e op) r (p.tasks e) p.answer? none
  | passes (htask : task = .checkpoint e ∨ ∃ id, task = .selfPoll e id) :
      Produces engines t task r [] none none
  | polls (htask : task = .checkpoint e ∨ ∃ id, task = .selfPoll e id) :
      Produces engines t task r [.registry e (.poll i)] none none
  | enters {body : Task} : Produces engines t (.blocking hold body) r [.registry e
        (.enterBlocking i), body, .registry e (.leaveBlocking i hold), .endRegion] none none
  | nests {body : Task} : Produces engines t (.blocking hold body) r [body] none none
  | leaves : Produces engines t .endRegion r [] none none
  | adopts : Produces engines t (.adopt e foreign) r [.checkpoint e] none none
  | adoptsNothing : Produces engines t (.adopt e foreign) r [] none none
  -- agents and suspensions
  | dispatches (hx : engines[e]? = some x) :
      Produces engines t (.dispatch e n) r [.deliver e n (x.agents.recipients n)] none none
  | delivers : Produces engines t (.deliver e n (a :: others)) r [.delivered e,
        .deliver e n others] none none
  | deliversAtGate {gate : String} : Produces engines t (.deliver e n (a :: others)) r [.gate gate,
        .delivered e, .deliver e n others] none none
  | delivered : Produces engines t (.deliver e n []) r [] none none
  | countsDelivery : Produces engines t (.delivered e) r [] none (some (e, .countDelivery))
  | suspends : Produces engines t (.suspended e i) (.count k) [.dispatch e (.threadSuspended i k),
        .selfPoll e i] none none
  | suspendsNobody (hr : ∀ k, r ≠ .count k) : Produces engines t (.suspended e i) r [] none none
  | resumes : Produces engines t (.resumed e i) (.change (some k))
      [.dispatch e (.threadResumed i k)] (some (.count k)) none
  | resumesNothing : Produces engines t (.resumed e i) (.change none) [] (some (.count 0)) none
  | resumesNobody (hr : ∀ c, r ≠ .change c) : Produces engines t (.resumed e i) r [] none none
  | repeats : Produces engines t (.repeatSuspend e i (k + 1)) r [.registry e (.requestSuspend i),
        .repeatSuspend e i k] none none
  | repeated : Produces engines t (.repeatSuspend e i 0) r [] none none
  -- collections
  | locks (hx : engines[e]? = some x) (hfree : x.collector.owner = none) :
      Produces engines t (.lockCollector e) r [] none (some (e, .lock t))
  | unlocks : Produces engines t (.unlockCollector e) r [] none (some (e, .unlock))
  | begins (hx : engines[e]? = some x) : Produces engines t (.beginCycle e reason) r
      [.dispatch e (.gcStarted (x.collector.cycles + 1)), .setPhase e .stopping,
        .registry e (.stopWorld i), .pause e (x.collector.cycles + 1) reason] none none
  | setsPhase : Produces engines t (.setPhase e p) r [] none (some (e, .setPhase p))
  | pauses (hx : engines[e]? = some x) :
      Produces engines t (.pause e cycle reason) (.count k) [.registry e .releaseWorld,
        .dropFinalizers ((x.heap.pause x.settings reason).discarded.map Prod.snd),
        .setPhase e .enqueuing, .enqueuePending e (x.heap.pause x.settings reason).pending
        (x.heap.pause x.settings reason).jobs (World.pauseReport cycle reason k
        (x.heap.pause x.settings reason))] none (some (e, .setPhase .sweeping))
  | givesUp (hr : ∀ k, r ≠ .count k) :
      Produces engines t (.pause e cycle reason) r [] none (some (e, .setPhase .idle))
  | leavesPending : Produces engines t (.enqueuePending e (i :: pending) jobs rp) r
      [.enqueuePending e pending jobs rp] none none
  | claims : Produces engines t (.enqueuePending e (i :: pending) jobs rp) r [.pushQueue q ⟨e, i⟩,
        .enqueuePending e pending jobs { rp with referencesEnqueued := rp.referencesEnqueued + 1 }]
      none none
  | claimed : Produces engines t (.enqueuePending e [] jobs rp) r [.schedule e jobs rp] none none
  | schedulesNothing : Produces engines t (.schedule e [] rp) r [.finishCycle e rp] none none
  | accepts (hx : engines[e]? = some x) (hjobs : jobs ≠ [])
      (haccepts : x.finalization.accepts = true) :
      Produces engines t (.schedule e jobs rp) r [.enrol e jobs rp] none none
  | refuses (hx : engines[e]? = some x) (hjobs : jobs ≠ [])
      (hrefuses : x.finalization.accepts = false) : Produces engines t (.schedule e jobs rp) r
      [.discardJobs e jobs jobs.length, .finishCycle e rp] none (some (e, .enrol jobs.length))
  | enrols :
      Produces engines t (.enrol e jobs rp) r [.send e jobs rp] none (some (e, .enrol jobs.length))
  | sends (hx : engines[e]? = some x) (hopen : x.finalization.receiver ≠ .closed) :
      Produces engines t (.send e jobs rp) r [.finishCycle e
        { rp with finalizersScheduled := jobs.length }] none (some (e, .send (.run jobs)))
  | bounces (hclosed : ∀ x, engines[e]? = some x → x.finalization.receiver = .closed) :
      Produces engines t (.send e jobs rp) r [.discardJobs e jobs jobs.length,
        .finishCycle e rp] none none
  | finishes (hx : engines[e]? = some x) : Produces engines t (.finishCycle e rp) r
      [.dispatch e (.gcFinished rp.cycle rp.reclaimedObjects rp.reclaimedBytes), .setPhase e .idle,
        .reply (.report rp)] none (some (e, .finish rp))
  | replies : Produces engines t (.reply v) r [] (some v) none
  | collects : Produces engines t (.collect e reason) r (collectTasks e reason) none none
  | collectsOpen (hx : engines[e]? = some x) :
      Produces engines t (.collectOpen e) r (collectTasks e .explicit) none none
  | refusesCollection : Produces engines t (.collectOpen e) r [] (some (.failed .shutDown)) none
  -- allocations
  | allocates : Produces engines t (.allocate e q) r [.checkpoint e, .attempt e q] none none
  | refusesObject (htask : task.isAllocation = true) :
      Produces engines t task r [.dropFinalizers l] (some v) none
  | stores (htask : task.isAllocation = true) : Produces engines t task r [] (some v) none
  | collectsFirst (hx : engines[e]? = some x) : Produces engines t (.attempt e q) r
      (collectTasks e (.allocationFailure n) ++ [.retry e q n false]) none none
  | collectsAgain : Produces engines t (.retry e q size false) r
      (collectTasks e (.emergency size) ++ [.retry e q size true]) none none
  -- finalizers
  | serves (hx : engines[e]? = some x) (hjobs : x.finalization.receive? = some (.run jobs, f)) :
      Produces engines t (.serve e) r (jobs.map (Task.runJob e) ++ [.serve e]) none
      (some (e, .take))
  | hears (hx : engines[e]? = some x) (hcall : x.finalization.receive? = some (.shutdown b, f)) :
      Produces engines t (.serve e) r [.drain e b] none (some (e, .take))
  | drains (hx : engines[e]? = some x) (hjobs : x.finalization.receive? = some (.run jobs, f)) :
      Produces engines t (.drain e true) r (jobs.map (Task.runJob e) ++ [.drain e true]) none
      (some (e, .take))
  | drainsAway (hx : engines[e]? = some x) (hjobs : x.finalization.receive? = some (.run jobs, f)) :
      Produces engines t (.drain e false) r [.discardJobs e jobs jobs.length,
        .drain e false] none (some (e, .take))
  | skips (hx : engines[e]? = some x) (hcall : x.finalization.receive? = some (.shutdown c, f)) :
      Produces engines t (.drain e b) r [.drain e b] none (some (e, .take))
  | drainsUnstarted (hx : engines[e]? = some x)
      (hjobs : x.finalization.receive? = some (.run jobs, f)) :
      Produces engines t (.drainUnstarted e) r [.discardJobs e jobs jobs.length,
        .drainUnstarted e] none (some (e, .take))
  | skipsUnstarted (hx : engines[e]? = some x)
      (hcall : x.finalization.receive? = some (.shutdown b, f)) :
      Produces engines t (.drainUnstarted e) r [.drainUnstarted e] none (some (e, .take))
  | departs (hempty : ∀ x, engines[e]? = some x → x.finalization.channel = []) : Produces engines t
      (.drain e b) r [.closeChannel e, .leaveService e, .announceExit e] none none
  | departsUnstarted (hempty : ∀ x, engines[e]? = some x → x.finalization.channel = []) :
      Produces engines t (.drainUnstarted e) r [.closeChannel e, .stopped e] none none
  | closes (hx : engines[e]? = some x) : Produces engines t (.closeChannel e) r
      [.dropJobs (x.finalization.channel.flatMap jobsOf)] none (some (e, .close))
  | runs : Produces engines t (.runJob e j) r [.body e j j.finalizer.actions []] none none
  | goesOn : Produces engines t (.body e j actions results) r [.body e j rest results'] none none
  | enqueues :
      Produces engines t (.body e j actions results) r
        [.clearReferent h, .releaseReference h, .bodyResumes e j l results] none none
  | collectsInside : Produces engines t (.body e j actions results) r [.collectOpen e,
        .releaseEngine e, .bodyResumes e j l results] none none
  | allocatesInside :
      Produces engines t (.body e j actions results) r
        [.allocate e q, .keepObject name, .releaseEngine e, .bodyResumes e j l results] none none
  | ends : Produces engines t (.body e j actions results) r (afterBody e j p) none none
  | comesBack :
      Produces engines t (.bodyResumes e j actions results) r [.body e j l results'] none none
  | finishesObject : Produces engines t (.finishObject o) r [] none none
  | dropsRoot : Produces engines t (.dropRoot o) r [] none none
  | completes : Produces engines t (.concludeJob e o none) r [] none (some (e, .count 1))
  | panics : Produces engines t (.concludeJob e o (some message)) r
      [.dispatch e (.finalizerPanicked o message), .countPanic e] none none
  | countsPanic : Produces engines t (.countPanic e) r [] none (some (e, .count 1))
  | discards : Produces engines t (.discardJobs e (j :: jobs) n) r [.dropJobs [j],
        .discardJobs e jobs n] none none
  | discarded : Produces engines t (.discardJobs e [] n) r [.retire e n, .announce e] none
      (some (e, .count n))
  | drops : Produces engines t (.dropJobs (j :: jobs)) r [.dropRoot j.object,
        .dropFinalizers [j.finalizer], .dropJobs jobs] none none
  | dropped : Produces engines t (.dropJobs []) r [] none none
  | retires : Produces engines t (.retire e n) r [] none (some (e, .retire n))
  | announces : Produces engines t (.announce e) r [] none (some (e, .announce))
  -- those who wait for finalizers
  | finds (hx : engines[e]? = some x) (hnone : x.finalization.pending = 0) :
      Produces engines t (.runFinalization e ms) r [] (some (.flag true)) none
  | despairs : Produces engines t (.runFinalization e ms) r [] (some (.flag false)) none
  | waits :
      Produces engines t (.runFinalization e ms) r [.blocking .any (.awaitDrain e ms)] none none
  | sees (hx : engines[e]? = some x) (hnone : x.finalization.pending = 0) :
      Produces engines t (.awaitDrain e ms) r [] (some (.flag true)) (some (e, .wake t))
  | expires : Produces engines t (.awaitDrain e ms) r [] (some (.flag false)) (some (e, .wake t))
  | sleeps (hx : engines[e]? = some x) (hsome : x.finalization.pending ≠ 0) :
      Produces engines t (.awaitDrain e ms) r [.awaitDrain e ms] none (some (e, .sleep t))
  -- the life of an engine
  | stopsAgain : Produces engines t (.stopEngine e) r [] (some .unit) none
  | stopsAtOnce (hx : engines[e]? = some x) (hstate : ¬(x.state = .stopped ∨ x.state = .stopping))
      (hexit : x.settings.runFinalizersOnExit = false) :
      Produces engines t (.stopEngine e) r [.refuseWork e] none none
  | stopsAfter (hx : engines[e]? = some x)
      (hstate : ¬(x.state = .stopped ∨ x.state = .stopping)) : Produces engines t (.stopEngine e) r
      (collectTasks e .shutdown ++ [.shutdownCollected e, .refuseWork e]) none none
  | refusesWork : Produces engines t (.refuseWork e) r [.claimReceiver e] none none
  | claimsReceiver (hx : engines[e]? = some x) (hreceiver : x.finalization.receiver = .unclaimed) :
      Produces engines t (.claimReceiver e) r [.drainUnstarted e] none (some (e, .claim))
  | findsStopped (hx : engines[e]? = some x) (hreceiver : x.finalization.receiver ≠ .unclaimed)
      (hjoinable : x.finalization.joinable = false) :
      Produces engines t (.claimReceiver e) r [.stopped e] none none
  | asksToLeave (hx : engines[e]? = some x) (hreceiver : x.finalization.receiver ≠ .unclaimed)
      (hjoinable : x.finalization.joinable = true) :
      Produces engines t (.claimReceiver e) r [.awaitExit e] none (some (e, .ask))
  | releases : Produces engines t (.releaseEngine e) r [] none none
  | releasesLast : Produces engines t (.releaseEngine e) r [.stopEngine e, .reply r] none none
  | keepsAgent : Produces engines t (.releaseAgent a) r [] none none
  | resigns : Produces engines t (.releaseAgent a) r [] none (some (a.engine, .resign a.id))
  | proceeds (htask : task.isProgram = true) (htasks : tasks.all Task.isProgram = true) :
      Produces engines t task r tasks none none

section Inversion

variable {engines : Array Runtime} {t e : Nat} {r : Reply} {tasks : List Task} {a : Option Reply}
  {c : Notch} {x : Runtime}

theorem produces_registry (h : (Task.registry e op).Produces engines t r tasks a c)
    (he : e < engines.size) : ∃ x expired registry p, engines[e]? = some x ∧
    x.registry.step t expired op = some (registry, p) ∧
    tasks = p.tasks e ∧ a = p.answer? ∧ c = none := by
  cases h with
  | strays htask hnone =>
    cases htask
    rw [Array.getElem?_eq_none_iff] at hnone
    omega
  | operates hx hstep => exact ⟨_, _, _, _, hx, hstep, rfl, rfl, rfl⟩
  | _ => first | contradiction | simp_all

theorem produces_beginCycle (h : (Task.beginCycle e reason).Produces engines t r tasks a c)
    (hx : engines[e]? = some x) : ∃ i, tasks = [.dispatch e (.gcStarted (x.collector.cycles + 1)),
      .setPhase e .stopping, .registry e (.stopWorld i), .pause e (x.collector.cycles + 1) reason] ∧
    a = none ∧ c = none := by
  cases h with
  | begins hx' =>
    cases hx.symm.trans hx'
    exact ⟨_, rfl, rfl, rfl⟩
  | _ => first | contradiction | simp_all [Task.engine?]

theorem produces_dispatch (h : (Task.dispatch e m).Produces engines t r tasks a c)
    (hx : engines[e]? = some x) : tasks = [.deliver e m (x.agents.recipients m)] ∧ a = none ∧
    c = none := by
  cases h with
  | dispatches hx' =>
    cases hx.symm.trans hx'
    exact ⟨rfl, rfl, rfl⟩
  | _ => first | contradiction | simp_all [Task.engine?]

theorem produces_deliver (h : (Task.deliver e m recipients).Produces engines t r tasks a c) :
    a = none ∧ c = none ∧
    (recipients = [] ∧ tasks = [] ∨ ∃ first others front, recipients = first :: others ∧
      front.all Task.isSide = true ∧ tasks = front ++ [.delivered e, .deliver e m others]) := by
  cases h with
  | strays htask => cases htask
  | delivered => exact ⟨rfl, rfl, .inl ⟨rfl, rfl⟩⟩
  | delivers => exact ⟨rfl, rfl, .inr ⟨_, _, [], rfl, rfl, rfl⟩⟩
  | deliversAtGate => exact ⟨rfl, rfl, .inr ⟨_, _, [.gate _], rfl, rfl, rfl⟩⟩
  | _ => first | contradiction | simp_all

theorem produces_setPhase (h : (Task.setPhase e p).Produces engines t r tasks a c) :
    tasks = [] ∧ a = none ∧ c = some (e, .setPhase p) := by
  cases h with
  | strays htask => cases htask
  | setsPhase => exact ⟨rfl, rfl, rfl⟩
  | _ => first | contradiction | simp_all

theorem produces_reply (h : (Task.reply v).Produces engines t r tasks a c) :
    tasks = [] ∧ a = some v ∧ c = none := by
  cases h with
  | strays htask => cases htask
  | replies => exact ⟨rfl, rfl, rfl⟩
  | _ => first | contradiction | simp_all

theorem produces_unlockCollector (h : (Task.unlockCollector e).Produces engines t r tasks a c) :
    tasks = [] ∧ a = none ∧ c = some (e, .unlock) := by
  cases h with
  | strays htask => cases htask
  | unlocks => exact ⟨rfl, rfl, rfl⟩
  | _ => first | contradiction | simp_all

theorem produces_lockCollector (h : (Task.lockCollector e).Produces engines t r tasks a c)
    (hx : engines[e]? = some x) :
    x.collector.owner = none ∧ tasks = [] ∧ a = none ∧ c = some (e, .lock t) := by
  cases h with
  | locks hx' hfree =>
    cases hx.symm.trans hx'
    exact ⟨hfree, rfl, rfl, rfl⟩
  | _ => first | contradiction | simp_all [Task.engine?]

end Inversion

/-- Whether there is an engine, or an agent that says so. -/
def Known (engines : Array Runtime) (agents : Table AgentHandle) (e : Nat) : Prop :=
  (∃ x, engines[e]? = some x) ∨ ∃ a ∈ agents, a.2.engine = e

/-- What an instruction begins with. -/
inductive Opening (engines : Array Runtime) (agents : Table AgentHandle) : List Task → Prop
  | plain {tasks : List Task} (h : tasks.all Task.isOpening = true) : Opening engines agents tasks
  | collects {e : Nat} {reason : Reason} {f : Finish} {x : Runtime} (hx : engines[e]? = some x) :
      Opening engines agents [.collect e reason, .conclude e f]
  | drains {e ms : Nat} {f : Finish} {x : Runtime} (hx : engines[e]? = some x) :
      Opening engines agents [.runFinalization e ms, .conclude e f]
  | suspends {e : Nat} {id : ThreadId} {tail : List Task} (he : Known engines agents e)
      (htail : tail.all Task.isOpening = true) : Opening engines agents (suspendTasks e id ++ tail)
  | resumes {e : Nat} {id : ThreadId} {tail : List Task} (he : Known engines agents e)
      (htail : tail.all Task.isOpening = true) : Opening engines agents (resumeTasks e id ++ tail)

theorem Opening.all_isFirst (h : Opening engines agents tasks) : tasks.all Task.isFirst = true := by
  have hall : ∀ {tasks : List Task}, tasks.all Task.isOpening = true →
      tasks.all Task.isFirst = true :=
    fun h => List.all_eq_true.mpr fun x hx => Task.isFirst_of_isOpening (List.all_eq_true.mp h x hx)
  cases h with
  | plain h => exact hall h
  | collects | drains => rfl
  | suspends _ h | resumes _ h =>
    rw [List.all_append, hall h]
    rfl

theorem Opening.of_agents (h : Opening engines agents tasks)
    (hagents : ∀ a ∈ agents, a.2.engine < engines.size) : Opening engines [] tasks := by
  have hknown : ∀ {e}, Known engines agents e → Known engines [] e := by
    rintro e (he | ⟨a, ha, rfl⟩)
    · exact .inl he
    · exact .inl ⟨_, Array.getElem?_eq_getElem (hagents a ha)⟩
  cases h with
  | plain h => exact .plain h
  | collects hx => exact .collects hx
  | drains hx => exact .drains hx
  | suspends he htail => exact .suspends (hknown he) htail
  | resumes he htail => exact .resumes (hknown he) htail

namespace World

variable {w w₁ w' : World} {t e : Nat} {task : Task}

/-- The stacks of all threads, what all engines show, and the agents that the program has names
for. -/
def floor (w : World) : Floor :=
  ⟨w.threads.map Thread.stack, w.engines.map Engine.board, w.names.agents, []⟩

/-- The same with what listeners have written down. -/
def view (w : World) : Floor :=
  ⟨w.threads.map Thread.stack, w.engines.map Engine.board, w.names.agents, w.output.notices⟩

section Primitives

variable {f : Runtime → Runtime}

@[simp]
theorem view_modifyThread {f : Thread → Thread} (h : ∀ x, (f x).stack = x.stack) :
    (w.modifyThread t f).view = w.view := by
  unfold view modifyThread
  congr 1
  have hmap : (w.threads.modify t f).map Thread.stack =
      (w.threads.map Thread.stack).modify t fun s => s := map_modify h
  rw [hmap, modify_eq_self fun _ _ => rfl]

@[simp]
theorem view_push (tasks : List Task) : (w.push t tasks).view = w.view.turn t tasks none := by
  unfold view push modifyThread Floor.turn
  congr 1
  dsimp only
  apply map_modify
  exact fun _ => rfl

@[simp]
theorem view_answer (r : Reply) : (w.answer t r).view = w.view.turn t [] (some r) := by
  unfold view answer modifyThread Floor.turn
  congr 1
  dsimp only
  apply map_modify
  exact fun _ => rfl

@[simp]
theorem view_setRegion (b : Bool) : (w.setRegion t b).view = w.view :=
  view_modifyThread fun _ => rfl

@[simp]
theorem view_leaveScope : (w.leaveScope t).view = w.view := view_modifyThread fun _ => rfl

@[simp]
theorem view_forget : (w.forget t).view = w.view := view_modifyThread fun _ => rfl

@[simp]
theorem view_complete (a : Answer) : (w.complete t a).view = w.view := by
  unfold complete
  split
  · rfl
  · exact view_modifyThread (f := fun x => { x with instruction := none }) fun _ => rfl

@[simp]
theorem view_refuse (r : Refusal) : (w.refuse t r).view = w.view := view_complete _

theorem view_modifyEngine (h : ∀ x, (f x).board = g x.board) :
    (w.modifyEngine e f).view = w.view.modifyBoard e g := by
  unfold view modifyEngine Floor.modifyBoard
  congr 1
  exact map_modify h

theorem view_modifyEngine_of_board (h : ∀ x, (f x).board = x.board) :
    (w.modifyEngine e f).view = w.view := by
  rw [view_modifyEngine (g := fun b => b) h, Floor.modifyBoard, modify_eq_self fun _ _ => rfl]

@[simp]
theorem view_modifyHeap (f : Heap Finalizer → Heap Finalizer) : (w.modifyHeap e f).view = w.view :=
  view_modifyEngine_of_board fun _ => rfl

@[simp]
theorem view_modifyRegistry (f : Registry → Registry) : (w.modifyRegistry e f).view = w.view :=
  view_modifyEngine_of_board fun _ => rfl

theorem view_modifyStatistics {f : Statistics → Statistics}
    (h : ∀ x : Runtime, ({ x with statistics := f x.statistics } : Runtime).board = g x.board) :
    (w.modifyStatistics e f).view = w.view.modifyBoard e g :=
  view_modifyEngine h

@[simp]
theorem view_recordScheduled (n : Nat) :
    (w.modifyStatistics e (·.recordScheduled n)).view = w.view :=
  view_modifyEngine_of_board fun _ => rfl

theorem board_statistics (x : Runtime) {f k : Statistics → Statistics}
    (h : (f x.statistics).collections = k x.statistics.collections) :
    ({ x with statistics := f x.statistics } : Runtime).board =
      { x.board with
        outcomes := (f x.statistics).outcomes, collections := x.board.collections.map k } := by
  unfold Engine.board
  dsimp only
  split
  · rw [h, Option.map_some]
    rfl
  · rfl

theorem view_recordCollection (r : Report) :
    (w.modifyStatistics e (·.recordCollection r)).view = w.view.modifyBoard e fun b =>
    { b with collections := b.collections.map fun s => (s.recordCollection r).collections } :=
  view_modifyStatistics fun x => board_statistics x (f := (·.recordCollection r)) (k := fun s =>
    (s.recordCollection r).collections) rfl

theorem view_recordOutcome {f : Statistics → Statistics} {n : Nat}
    (hn : ∀ s, (f s).outcomes = (s.outcomes + n) % Numeral.wordLimit)
    (hf : ∀ s, (f s).collections = s.collections) :
    (w.modifyStatistics e f).view = w.view.modifyBoard e (.count n) := by
  refine view_modifyStatistics fun x => ?_
  unfold Engine.board Board.count
  dsimp only
  rw [hn, hf]
  rfl

@[simp]
theorem view_recordCompleted : (w.modifyStatistics e Statistics.recordCompleted).view =
    w.view.modifyBoard e (.count 1) := by
  refine view_recordOutcome (fun s => ?_) fun _ => rfl
  simp only [Statistics.outcomes, Statistics.recordCompleted, Statistics.bump, Numeral.wordLimit,
    UInt64.size]
  omega

@[simp]
theorem view_recordPanicked : (w.modifyStatistics e Statistics.recordPanicked).view =
    w.view.modifyBoard e (.count 1) := by
  refine view_recordOutcome (fun s => ?_) fun _ => rfl
  simp only [Statistics.outcomes, Statistics.recordPanicked, Statistics.bump, Numeral.wordLimit,
    UInt64.size]
  omega

@[simp]
theorem view_recordDiscarded (n : Nat) : (w.modifyStatistics e (·.recordDiscarded n)).view =
    w.view.modifyBoard e (.count n) := by
  refine view_recordOutcome (fun s => ?_) fun _ => rfl
  simp only [Statistics.outcomes, Statistics.recordDiscarded, Statistics.bump, Numeral.wordLimit,
    UInt64.size]
  omega

@[simp]
theorem view_resetStatistics :
    (w.modifyStatistics e fun _ => {}).view = w.view.modifyBoard e .reset :=
  view_modifyStatistics fun x => board_statistics x (f := fun _ => {}) (k := fun _ => {}) rfl

@[simp]
theorem view_retainEngine : (w.retainEngine e).view = w.view :=
  view_modifyEngine_of_board fun _ => rfl

theorem view_modifyFinalization {f : Finalization Finalizer → Finalization Finalizer}
    (h : ∀ x, (f x).pending = x.pending ∧ (f x).awaitingDrain = x.awaitingDrain ∧
      (f x).receiver = x.receiver ∧ (f x).joinable = x.joinable ∧ (f x).channel = x.channel) :
    (w.modifyFinalization e f).view = w.view := by
  refine view_modifyEngine_of_board fun x => ?_
  obtain ⟨hpending, hsleepers, hreceiver, hjoinable, hchannel⟩ := h x.finalization
  unfold Engine.board Engine.post
  dsimp only
  rw [hpending, hsleepers, hreceiver, hjoinable, hchannel]

theorem view_modifyEngine_at (hx : w.engines[e]? = some x) (h : (f x).board = g x.board) :
    (w.modifyEngine e f).view = w.view.modifyBoard e g := by
  unfold view modifyEngine Floor.modifyBoard
  congr 1
  apply Array.ext_getElem?
  intro j
  simp only [Array.getElem?_map, Array.getElem?_modify]
  split
  · next hj =>
      subst hj
      rw [hx]
      simp [h]
  · rfl

theorem view_setFinalization (hx : w.engines[e]? = some x) (f : Finalization Finalizer)
    (h : Engine.board { x with finalization := f } = g x.board) :
    (w.modifyFinalization e fun _ => f).view = w.view.modifyBoard e g :=
  view_modifyEngine_at hx h

@[simp]
theorem view_modifyQueue (q : Nat) (f : Queue → Queue) : (w.modifyQueue q f).view = w.view := (rfl)

@[simp]
theorem view_report (records : List LogRecord) : (w.report records).view = w.view := (rfl)

@[simp]
theorem view_note (n : FinalizerNote) : (w.note n).view = w.view := (rfl)

@[simp]
theorem view_log (event : Event) : (w.log e event).view = w.view := by
  unfold log
  split
  · rfl
  · next x hx =>
      exact view_modifyEngine_of_board (w := w) (f := fun y =>
        { y with journal := (x.journal.log event).1 }) fun _ => rfl

@[simp]
theorem view_mk (queues : Array Queue) (gates : List String) (names : Names)
    (handles : List AgentHandle) (next : Nat) (first : Option Nat) (held : Bool) (output : Output)
    (hnames : names.agents = w.names.agents)
    (hnotices : output.notices = w.output.notices) :
    ({ engines := w.engines, queues := queues, threads := w.threads, openGates := gates,
       names := names, agentHandles := handles, nextReference := next, firstReference := first,
       bodiesHeld := held, output := output } : World).view = w.view := by
  unfold view
  rw [hnames, hnotices]

@[simp]
theorem view_dropRoot (r : Root) : (w.dropRoot r).view = w.view := view_modifyHeap _

@[simp]
theorem view_cloneRoot (r : Root) : (w.cloneRoot r).view = w.view := view_modifyHeap _

@[simp]
theorem view_modifyReference (h : Handle) (f : Heap Finalizer → Nat → Heap Finalizer) :
    (w.modifyReference h f).view = w.view := view_modifyHeap _

@[simp]
theorem view_bindObject (name : String) (r : Root) : (w.bindObject name r).view = w.view := by
  unfold bindObject
  dsimp only
  split <;> simp

@[simp]
theorem view_bindObject? (name : Option String) (r : Root) :
    (w.bindObject? name r).view = w.view := by
  unfold bindObject?
  split <;> simp

@[simp]
theorem view_bindForeign (name : Option String) (r : Root) :
    (w.bindForeign name r).view = w.view := by
  unfold bindForeign
  split
  · simp
  · dsimp only
    split <;> simp

@[simp]
theorem view_bindReference (name : String) (h : Handle) :
    (w.bindReference name h).view = w.view := by
  unfold bindReference
  dsimp only
  split <;> simp

@[simp]
theorem view_bindForeignReference (name : String) (h : Handle) :
    (w.bindForeignReference name h).view = w.view := by
  unfold bindForeignReference
  dsimp only
  split <;> simp

@[simp]
theorem view_cloneNamed (labels : List String) : (w.cloneNamed labels).2.view = w.view := by
  have hfold : ∀ (roots : List Root) v, (roots.foldl cloneRoot v).view = v.view := by
    intro roots
    induction roots with
    | nil => exact fun _ => rfl
    | cons r rest ih => exact fun v => (ih _).trans (view_cloneRoot r)
  exact hfold _ _

@[simp]
theorem view_makeRequest (s : ObjectSpec) : (w.makeRequest s).2.view = w.view := by
  unfold makeRequest makeFinalizer
  split <;> simp

@[simp]
theorem view_exchangeStage (h : Handle) (old new : ReferenceStage) :
    (w.exchangeStage h old new).2.view = w.view := by
  unfold exchangeStage
  split <;> simp

theorem view_of_exchange (hmoved : w.exchangeStage h old new = (moved, w₁)) : w₁.view = w.view := by
  have hview := view_exchangeStage (w := w) h old new
  rwa [hmoved] at hview

@[simp]
theorem view_getReferent (h : Handle) : (w.getReferent h).2.view = w.view := by
  unfold getReferent
  split <;> simp

theorem view_of_getReferent (hgot : w.getReferent h = (got, w₁)) : w₁.view = w.view := by
  have hview := view_getReferent (w := w) h
  rwa [hgot] at hview

@[simp]
theorem view_peekReferent (name : String) : (w.peekReferent name).2.view = w.view := by
  unfold peekReferent
  split
  · rfl
  · split
    · next hgot => exact view_of_getReferent hgot
    · next hgot =>
        dsimp only
        rw [view_dropRoot]
        exact view_of_getReferent hgot

@[simp]
theorem view_readField (r : Root) (index : Nat) (bind : Option String) :
    (w.readField r index bind).2.view = w.view := by
  unfold readField
  (repeat' split) <;> simp

@[simp]
theorem view_writeField (r : Root) (index : Nat) (value : Option String) :
    (w.writeField r index value).2.view = w.view := by
  unfold writeField
  (repeat' split) <;> simp

@[simp]
theorem view_noteRun (job : Job Finalizer) (results : List ActionResult) :
    (w.noteRun t job results).view = w.view := by
  unfold noteRun
  split <;> simp

@[simp]
theorem view_dropPrevious (previous : Option Root) : (w.dropPrevious previous).view = w.view := by
  unfold dropPrevious
  split <;> simp

@[simp]
theorem view_clearInterrupt : (w.clearInterrupt t).view = w.view := by
  unfold clearInterrupt
  split <;> simp

@[simp]
theorem view_bindValue (f : Finish) : (w.bindValue t f).2.view = w.view := by
  unfold bindValue reportFailure
  dsimp only
  (repeat' split) <;> try simp
  exact view_modifyThread fun _ => rfl

end Primitives

end World

end ManagedHeap
