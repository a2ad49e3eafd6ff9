import ManagedHeap.Proofs.Polling
import ManagedHeap.Proofs.PendingBalance
import ManagedHeap.Proofs.Stopping

/-!
# Pending finalizers

**Input.**  A run, with an engine whose jobs are scheduled, run and dropped while it may be told to
stop.

**Algorithm.**  A job that was scheduled is with a thread, on the channel, run, dropped, or lost
with the channel.  The counter of an engine shows how many of its jobs are not yet done with: those
that wait, those that run, those that were run or dropped and are still to be taken off, and those
that were lost.

**Results.**  `World.keepsPending_after`: the counter is exact, and when nothing is underway any
more only what was sent between the last look at the channel and its closing is left on it.
-/

namespace ManagedHeap

/-- Whether a task belongs to a call that schedules jobs of an engine. -/
def Task.schedules (e : Nat) : Task → Bool
  | .enrol e' .. | .send e' .. | .discardJobs e' .. | .retire e' _ => e' == e
  | _ => false

@[simp]
def Charge.running : Charge → Nat
  | .body => 1
  | _ => 0

/-- How many jobs were run or dropped and are still to be taken off the counter. -/
@[simp]
def Charge.leaving : Charge → Nat
  | .discard jobs n => n - jobs.length
  | .retire n => n
  | _ => 0

theorem Charge.Orderly.exists_loop (h : Orderly cs) (hc : c ∈ cs)
    (hwork : (∃ j, c = .job j) ∨ c = .body) : ∃ d ∈ cs, d.isLoop = true := by
  induction cs with
  | nil => cases hc
  | cons d rest ih =>
    have hbehind : ∃ d ∈ rest, d.isLoop = true := by
      rcases List.mem_cons.mp hc with rfl | hmem
      · rcases hwork with ⟨j, rfl⟩ | rfl
        · exact h.1
        · exact h.1
      · exact ih h.2 hmem
    obtain ⟨d, hd, hloop⟩ := hbehind
    exact ⟨d, List.mem_cons_of_mem _ hd, hloop⟩

theorem Charge.Orderly.weight {cs : List Charge} (h : Orderly cs) :
    (cs.map Charge.weight).sum = (cs.map Charge.carried).sum.card + (cs.map Charge.running).sum +
      (cs.map Charge.leaving).sum := by
  induction cs with
  | nil => rfl
  | cons c rest ih =>
    have hc : c.weight = c.carried.card + c.running + c.leaving := by
      cases c with
      | discard jobs n =>
        have hfits : jobs.length ≤ n := h.1
        simp only [Charge.weight, Charge.carried, Charge.running, Charge.leaving, Multiset.coe_card]
        omega
      | _ => simp
    simp only [List.map_cons, List.sum_cons, Multiset.card_add]
    rw [ih h.2, hc]
    omega

/-- Who has closed a channel has left nothing on it, and nobody can send any more. -/
theorem Docket.Step.shut (h : Step d hs d')
    (hd : d.receiver = .closed → d.channel = []) : d'.receiver = .closed → d'.channel = [] := by
  cases h with
  | stops =>
    unfold Docket.stop
    (repeat' split) <;> simp_all [Docket.receiver, Docket.channel]
  | @closes p r => cases p <;> simp [Docket.receiver, Docket.channel]
  | _ => simp_all [Docket.receiver, Docket.channel, Post.hired]

theorem Docket.Course.shut (h : Course d hs d')
    (hd : d.receiver = .closed → d.channel = []) : d'.receiver = .closed → d'.channel = [] := by
  induction h with
  | refl => exact hd
  | tail _ step ih => exact step.shut ih

namespace Slate

variable {s s' : Slate} {ps : List Posting}

theorem sum_eq_zero {M : Type} [AddCommMonoid M] {f : Charge → M} (h : ∀ l ∈ s.charges, l = []) :
    s.sum f = 0 := by
  refine List.sum_eq_zero fun m hm => ?_
  obtain ⟨l, hl, rfl⟩ := List.mem_map.mp hm
  rw [h l (Array.mem_toList_iff.mp hl)]
  rfl

theorem Sound.weight (hs : s.Sound ps) : s.sum Charge.weight =
      (s.sum Charge.carried).card + s.sum Charge.running + s.sum Charge.leaving := by
  have horderly : ∀ l ∈ s.charges.toList, Charge.Orderly l := by
    intro l hl
    obtain ⟨t, rfl⟩ := exists_held (Array.mem_toList_iff.mp hl)
    exact hs.orderly t
  unfold sum
  generalize s.charges.toList = ls at horderly
  induction ls with
  | nil => rfl
  | cons l rest ih =>
    have hl := (horderly l List.mem_cons_self).weight
    have hrest := ih fun l hl => horderly l (List.mem_cons_of_mem _ hl)
    simp only [List.map_cons, List.sum_cons, Multiset.card_add]
    omega

theorem Sound.idle (hs : s.Sound ps) (h : ∀ l ∈ s.charges, ∀ c ∈ l, (∃ j, c = .job j) ∨ c = .body) :
    ∀ l ∈ s.charges, l = [] := by
  intro l hl
  refine List.eq_nil_iff_forall_not_mem.mpr fun c hc => ?_
  obtain ⟨t, rfl⟩ := exists_held hl
  obtain ⟨d, hd, hloop⟩ := (hs.orderly t).exists_loop hc (h _ hl c hc)
  rcases h _ hl d hd with ⟨j, rfl⟩ | rfl <;> cases hloop

theorem Grows.close_mem (h : s.Grows s') (hclose : .close ∈ s'.held u) : .close ∈ s.held u := by
  induction h with
  | refl => exact hclose
  | tail _ opens ih =>
    cases opens with
    | account => exact ih hclose
    | @thread cs hcs =>
      refine ih ?_
      unfold held at hclose ⊢
      rw [Array.getElem?_push] at hclose
      split at hclose
      · rcases hcs with rfl | ⟨rfl, -⟩ <;> simp at hclose
      · exact hclose

theorem Turn.close_mem (h : Turn next m s ps s') (hclose : .close ∈ s'.held u) :
    .close ∈ s.held u ∨ (m = .step u ∧ next u = some .drain ∧ Account.sentOf s.account = []) := by
  cases h with
  | grows hgrows => exact .inl (hgrows.close_mem hclose)
  | @steps t s a _ _ ht hshift =>
    have ht' : t < ({ s with account := a } : Slate).charges.size := ht
    by_cases hu : t = u
    · subst hu
      rw [held_push_self ht'] at hclose
      rw [held_push_self ht]
      rcases List.mem_append.mp hclose with hnew | hrest
      · rcases hshift.closing hnew with hsame | ⟨hdrain, hempty⟩
        · exact .inl (List.mem_append_left _ (Option.mem_toList.mpr hsame))
        · exact .inr ⟨rfl, hdrain, hempty⟩
      · exact .inl (List.mem_append_right _ hrest)
    · rw [held_push_of_ne hu] at hclose ⊢
      exact .inl hclose

end Slate

namespace World

variable {w w' : World} {t e : Nat} (s : EngineSpec) (label : String) (moves : List Move)

section Closing

def tasksOf (w : World) (t : Nat) : List Task := (w.threads[t]?).elim [] (·.tasks)

theorem held_slate : (w.slate e).held t = (w.tasksOf t).filterMap (Task.charge? e) := by
  unfold Slate.held slate tasksOf
  rw [Array.getElem?_map]
  cases w.threads[t]? <;> rfl

theorem charge?_eq_close {task : Task} : task.charge? e = some .close ↔ task = .closeChannel e := by
  cases task <;> simp

theorem close_mem_held : .close ∈ (w.slate e).held t ↔ .closeChannel e ∈ w.tasksOf t := by
  rw [held_slate, List.mem_filterMap]
  constructor
  · rintro ⟨task, hmem, hcharge⟩
    rwa [charge?_eq_close.mp hcharge] at hmem
  · exact fun hmem => ⟨_, hmem, charge?_eq_close.mpr rfl⟩

def sent (w : World) (e : Nat) : List (Job Finalizer) := Account.sentOf (w.slate e).account

/-- Whether a thread is about to look whether the channel of an engine is empty, to leave if it
is. -/
def Drains (w : World) (t e : Nat) : Prop :=
  (∃ b, w.nextTask t = some (.drain e b)) ∨ w.nextTask t = some (.drainUnstarted e)

theorem drains_of_nextCharge (h : w.nextCharge e t = some .drain) : w.Drains t e := by
  obtain ⟨task, hnext, hcharge⟩ := Option.bind_eq_some_iff.mp h
  unfold Drains
  rw [hnext]
  cases task <;> simp_all

/-- **A thread that is going to close a channel has found it empty,** and has been going to close it
since. -/
theorem exists_look (h : .closeChannel e ∈ ((start s label).after moves).tasksOf t) :
    ∃ past later, moves = past ++ .step t :: later ∧ ((start s label).after past).Drains t e ∧
    ((start s label).after past).sent e = [] ∧ ∀ p, p <+: later →
    .closeChannel e ∈ ((start s label).after (past ++ .step t :: p)).tasksOf t := by
  induction moves using List.reverseRecOn with
  | nil =>
    have hclose := (grown_start s label).close_mem (close_mem_held.mpr h)
    simp [Slate.held, slate] at hclose
  | append_singleton moves m ih =>
    have hturn :=
      slate_turn_move (regular_after s label moves) (slate_sound_after s label e moves).grounded m
    have hclose := close_mem_held.mpr h
    rw [after_append] at hclose
    rcases hturn.close_mem hclose with hbefore | ⟨rfl, hdrain, hempty⟩
    · obtain ⟨past, later, rfl, hlooks, hempty, hkept⟩ := ih (close_mem_held.mp hbefore)
      refine ⟨past, later ++ [m], by simp, hlooks, hempty, fun p hp => ?_⟩
      rcases List.prefix_concat_iff.mp hp with rfl | hp
      · simpa using h
      · exact hkept p hp
    · refine ⟨moves, [], rfl, drains_of_nextCharge hdrain, hempty, fun p hp => ?_⟩
      rw [List.prefix_nil.mp hp]
      exact h

end Closing

section Exit

/-- Whether a call that schedules jobs of an engine has begun and has not ended. -/
def Schedules (w : World) (e : Nat) : Prop :=
  ∃ x ∈ w.threads, ∃ task ∈ x.tasks, task.schedules e = true

/-- The jobs that were scheduled and are not yet counted. -/
def arriving (w : World) (e : Nat) : Multiset (Job Finalizer) := (w.slate e).sum Charge.arriving

/-- The jobs that were counted and are neither run nor dropped: with threads, and on the channel. -/
def waiting (w : World) (e : Nat) : Multiset (Job Finalizer) :=
  (w.slate e).sum Charge.carried + ↑(w.sent e)

def running (w : World) (e : Nat) : Nat := (w.slate e).sum Charge.running

/-- How many jobs were run or dropped and are still to be taken off the counter. -/
def leaving (w : World) (e : Nat) : Nat := (w.slate e).sum Charge.leaving

/-- The jobs of an engine that met a fate in moves. -/
def fated (w : World) (e : Nat) (fate : Fate) (moves : List Move) : Multiset (Job Finalizer) :=
  Posting.jobsOf fate (w.posted e moves)

theorem sent_eq_nil_of_closed {x : Runtime}
    (hx : ((start s label).after moves).engines[e]? = some x)
    (hclosed : x.finalization.receiver = .closed) : ((start s label).after moves).sent e = [] := by
  have hshut := (course_after (e := e) s label moves).shut nofun
  have hchannel := hshut (by rw [Docket.receiver, docket, hx]; exact hclosed)
  rw [Docket.channel, docket, hx] at hchannel
  rw [sent, account_slate hx, Account.sentOf]
  show x.finalization.channel.flatMap jobsOf = []
  rw [show x.finalization.channel = [] from hchannel, List.flatMap_nil]

/-- A thread that receives, or is about to close the channel, has its receiving end. -/
theorem isReceiver_of_charge? {task : Task} {c : Charge} (h : task.charge? e = some c)
    (hc : c.isLoop = true ∨ c = .close) : ∃ r, task.errand? e = some r ∧ r.isReceiver = true := by
  cases task <;> simp only [Task.charge?] at h <;>
    grind [Task.errand?, Errand.isReceiver, Charge.isLoop]

theorem held_eq_nil_of_closed {x : Runtime}
    (hx : ((start s label).after moves).engines[e]? = some x)
    (hclosed : x.finalization.receiver = .closed)
    (hidle : ¬((start s label).after moves).Schedules e) :
    ∀ l ∈ (((start s label).after moves).slate e).charges, l = [] := by
  refine (slate_sound_after s label e moves).idle fun l hl c hc => ?_
  have htoken := (sound_after (e := e) s label moves).token
  generalize (start s label).after moves = w at hx hidle hl htoken
  have hgone : (w.docket e).receiver = .closed := by
    rw [Docket.receiver, docket, hx]
    exact hclosed
  obtain ⟨y, hy, rfl⟩ := Array.mem_map.mp hl
  obtain ⟨task, htask, hcharge⟩ := List.mem_filterMap.mp hc
  have hnoReceiver : ¬(c.isLoop = true ∨ c = .close) := by
    intro hreceives
    obtain ⟨r, hr, hreceiver⟩ := isReceiver_of_charge? hcharge hreceives
    have hmem : r ∈ (w.docket e).errands :=
      mem_total.mpr ⟨y, hy, Multiset.mem_coe.mpr (List.mem_filterMap.mpr ⟨task, htask, hr⟩)⟩
    have hpos := receivers_pos hmem hreceiver
    rw [htoken, hgone] at hpos
    cases hpos
  have hnoCall : task.schedules e = false := by
    cases hschedules : task.schedules e with
    | false => rfl
    | true => exact (hidle ⟨y, hy, task, htask, hschedules⟩).elim
  cases task <;> simp only [Task.charge?] at hcharge <;> grind [Task.schedules, Charge.isLoop]

/-- What becomes of the jobs of an engine in a run from the start. -/
structure KeepsPending (w : World) (e : Nat) (moves : List Move) : Prop where
  /-- The counter shows the jobs that wait and the finalizers that run; besides, what was run or
  dropped and is still to be taken off, and what was lost. -/
  counter : ∀ x, (w.after moves).engines[e]? = some x → x.finalization.pending =
    ((w.after moves).waiting e).card + (w.after moves).running e + (w.after moves).leaving e +
      (w.fated e .lost moves).card
  /-- Every job that was ever scheduled is in one place, and there once. -/
  fates : w.fated e .scheduled moves = (w.after moves).arriving e + (w.after moves).waiting e +
    (w.fated e .begun moves + w.fated e .dropped moves + w.fated e .lost moves)
  /-- When the receiving end is gone and no call schedules, only what was lost is left. -/
  settled : ∀ x, (w.after moves).engines[e]? = some x → x.finalization.receiver = .closed →
    ¬(w.after moves).Schedules e → x.finalization.pending = (w.fated e .lost moves).card ∧
    (w.after moves).running e = 0 ∧ w.fated e .scheduled moves =
      w.fated e .begun moves + w.fated e .dropped moves + w.fated e .lost moves
  /-- What a thread is about to lose with the channel was sent after it had found the channel
  empty. -/
  looks : ∀ t, .closeChannel e ∈ (w.after moves).tasksOf t → ∃ past later,
    moves = past ++ .step t :: later ∧ (w.after past).Drains t e ∧ (w.after past).sent e = [] ∧
    ∀ p, p <+: later → .closeChannel e ∈ (w.after (past ++ .step t :: p)).tasksOf t

/-- **The counter of pending finalizers is exact, but for what is lost with the channel.**  Whatever
calls schedule jobs and whenever the finalizer thread is told to leave, each job waits, runs, is
dropped or is lost, once.  Lost are the jobs that are sent between the last look of the finalizer
thread at its channel and the closing. -/
theorem keepsPending_after (s : EngineSpec) (label : String) (e : Nat) (moves : List Move) :
    (start s label).KeepsPending e moves := by
  have hsound := slate_sound_after s label e moves
  have hpending : ∀ x, ((start s label).after moves).engines[e]? = some x → x.finalization.pending =
      Account.pendingOf (((start s label).after moves).slate e).account := by
    intro x hx
    rw [account_slate hx]
    rfl
  constructor
  case counter =>
    intro x hx
    rw [hpending x hx, hsound.counter, hsound.weight, waiting, Multiset.card_add, Multiset.coe_card,
      running, leaving, fated, sent]
    omega
  case fates =>
    rw [fated, hsound.fates, arriving, waiting, add_assoc (Slate.sum Charge.arriving _)]
    rfl
  case settled =>
    intro x hx hclosed hidle
    have hnothing := held_eq_nil_of_closed s label moves hx hclosed hidle
    have hsent := sent_eq_nil_of_closed s label moves hx hclosed
    unfold sent at hsent
    refine ⟨?_, Slate.sum_eq_zero hnothing, ?_⟩
    · rw [hpending x hx, hsound.counter, Slate.sum_eq_zero hnothing, hsent, List.length_nil,
        Nat.zero_add]
      rfl
    · rw [fated, hsound.fates, Slate.sum_eq_zero hnothing, Slate.sum_eq_zero hnothing, hsent,
        Multiset.coe_nil, zero_add, zero_add, zero_add]
      rfl
  case looks => exact fun t h => exists_look s label moves h

/-- A collection has counted a job when the engine is stopped, and sends it after the finalizer
thread has looked at its channel for the last time. -/
def lostMoves : List Move :=
  [.call "main", .call "other"] ++
    given 1 0 (.allocate "gc" { size := 16, finalizer := some ⟨"late", [], []⟩ } none) 8 ++
    given 1 1 (.collect "gc" (some .explicit)) 16 ++ given 2 2 (.stop "gc") 4 ++
    List.replicate 2 (.step 0) ++ List.replicate 20 (.step 1) ++ List.replicate 12 (.step 0) ++
    List.replicate 12 (.step 2)

def lostJob : Job Finalizer := ⟨⟨0, ⟨0, 1⟩⟩, ⟨"late", [], []⟩⟩

/-- A finalizer has panicked, and the agent that hears of it waits at a gate. -/
def panicMoves : List Move :=
  .call "main" ::
    (given 1 0 (.registerAgent "gc" "watch" ⟨true, true, true⟩ true
        (some ("FinalizerPanicked", "gate"))) 4 ++
      given 1 1 (.allocate "gc"
        { size := 16, finalizer := some ⟨"late", [.panic "boom"], []⟩ } none) 8 ++
      given 1 2 (.collect "gc" (some .explicit)) 31 ++ List.replicate 9 (.step 0))

def panicJob : Job Finalizer := ⟨⟨0, ⟨0, 1⟩⟩, ⟨"late", [.panic "boom"], []⟩⟩

/-- Everybody is idle, and the counter shows a job that was neither run nor dropped.  In another run
nobody can move until a gate is opened, and the counter shows a job whose finalizer was run and
which its object has done with. -/
theorem pending_miscounts : ((((start startedEngine "gc").after lostMoves).engines[0]?).map fun x =>
      (x.finalization.pending, x.finalization.receiver)) = some (1, .closed) ∧
    ((start startedEngine "gc").after lostMoves).threads.map (·.tasks.length) = #[0, 0, 0] ∧
    (start startedEngine "gc").posted 0 lostMoves = [⟨.scheduled, [lostJob]⟩, ⟨.lost, [lostJob]⟩] ∧
    ((((start startedEngine "gc").after panicMoves).engines[0]?).map fun x =>
      (x.finalization.pending, x.heap.isFinalizerPending panicJob.object.object)) =
      some (1, false) ∧ (∀ t < 2, ((start startedEngine "gc").after panicMoves).canMove t = false) ∧
    (start startedEngine "gc").posted 0 panicMoves = [⟨.scheduled, [panicJob]⟩,
      ⟨.begun, [panicJob]⟩] ∧ ((start startedEngine "gc").after panicMoves).waiting 0 = 0 ∧
    ((start startedEngine "gc").after panicMoves).running 0 = 0 := by
  refine ⟨?_, ?_, ?_, ?_, ?_, ?_, ?_, ?_⟩ <;> decide +kernel

end Exit

end World

end ManagedHeap
