import ManagedHeap.Proofs.AgentCalls

/-!
# Suspensions nest

**Input.**  A run, and a thread that is suspended and resumed in it by others, while the world is
stopped and released.

**Algorithm.**  A suspension adds to the count of a thread and a resumption takes from it, unless it
is zero.  Whoever made the call then logs what it did and tells agents about it.  A parked thread
looks at its count and at pauses when it is woken.

**Results.**  `World.nestsSuspensions_after`: what the count of a thread is, what is told about it,
and when it leaves its park.
-/

namespace ManagedHeap

variable {rest : List Task}

section Counts

/-- What a section makes of the suspension count of a thread. -/
def Operation.recount (id : ThreadId) (n : Nat) : Operation → Nat
  | .requestSuspend target => if id = target then min (n + 1) suspendCountMax else n
  | .resume target => if id = target then n - 1 else n
  | _ => n

namespace Registry

variable {r r' : Registry} {thread : Nat} {id target : ThreadId} {op : Operation} {p : Progress}

def countOf (r : Registry) (id : ThreadId) : Option Nat := (r.get? id).map (·.suspendCount)

theorem countOf_of_masked (h : r'.masked = r.masked) : r'.countOf id = r.countOf id := by
  have hmasked : ∀ q : Registry, q.countOf id = (q.masked.get? id).map (·.suspendCount) := by
    intro q
    rw [get?_masked, Option.map_map]
    rfl
  rw [hmasked, h, ← hmasked]

theorem Edits.suspendCount {m m' : Mutator} (h : m.Edits r id op m') :
    m'.suspendCount = op.recount id m.suspendCount := by
  cases h with
  | @keeps op hspares =>
    cases op with
    | requestSuspend target => exact (if_neg (Ne.symm hspares)).symm
    | resume target =>
      by_cases htarget : target = id
      · rw [Operation.recount, hspares htarget, ite_self]
      · exact (if_neg (Ne.symm htarget)).symm
    | _ => rfl
  | leaves | goesOn => exact Mutator.suspendCount_resumeRunning
  | raises => exact Mutator.suspendCount_requestStop.trans (if_pos rfl).symm
  | lowers => exact (if_pos rfl).symm
  | leavesHeld hlast | frees hlast =>
    have hzero : m.suspendCount - 1 = 0 := by rw [hlast]
    exact ((if_pos rfl).trans hzero).symm
  | _ => rfl

/-- **What a section makes of the count of a thread.**  A thread that has just been attached begins
at zero. -/
theorem Section.countOf (h : r.Section thread op r' p) (hn : r'.countOf id = some n) :
    (∃ k, r.countOf id = some k ∧ n = op.recount id k) ∨ id = r.nextId ∧ n = 0 := by
  obtain ⟨m', hm', rfl⟩ := Option.map_eq_some_iff.mp hn
  have hturns := h.turns id
  rw [hm'] at hturns
  unfold Registry.countOf
  generalize r.get? id = o at hturns
  cases hturns with
  | edits _ hedits => exact .inl ⟨_, rfl, Edits.suspendCount hedits⟩
  | asked => exact .inl ⟨_, rfl, Mutator.suspendCount_requestStop⟩
  | released hop => exact .inl ⟨_, rfl, by rcases hop with rfl | ⟨i, rfl⟩ <;> split <;> rfl⟩
  | comes hnext =>
    refine .inr ⟨hnext, ?_⟩
    split
    · exact Mutator.suspendCount_requestStop
    · rfl

end Registry

end Counts

section Reports

/-- Whether agents are told about the suspension of a thread. -/
def Notice.isOfThread : Notice → Bool
  | .threadSuspended .. | .threadResumed .. => true
  | _ => false

/-- What is logged of what agents are told about the suspension of a thread. -/
def Notice.event? : Notice → Option Event
  | .threadSuspended id n => some (.threadSuspended (ThreadId.display id) n)
  | .threadResumed id n => some (.threadResumed (ThreadId.display id) n)
  | _ => none

namespace Task

/-- Whether a task counts a suspension or a resumption. -/
def isRequest : Task → Bool
  | .registry _ (.requestSuspend _) | .registry _ (.resume _) => true
  | _ => false

def isReport : Task → Bool
  | .suspended .. | .resumed .. => true
  | _ => false

/-- Whether a task has nothing to tell about a suspension. -/
def isMute : Task → Bool
  | .dispatch _ n => !n.isOfThread
  | task => !task.isReport

/-- What a task is about to report of what was counted on an engine; the reply is that of the
count. -/
def reports (e : Nat) : Task → Reply → Multiset Notice
  | .suspended k id, .count n => if k = e then {.threadSuspended id n} else 0
  | .resumed k id, .change (some n) => if k = e then {.threadResumed id n} else 0
  | _, _ => 0

/-- What a task tells the agents of an engine about suspensions. -/
def tells (e : Nat) : Task → Multiset Notice := dispatches e Notice.isOfThread

/-- Whether a task has nothing to tell about a suspension, to all agents or to some. -/
def isSilent : Task → Bool
  | .deliver _ n _ => !n.isOfThread
  | task => task.isMute

variable {task : Task} {engines : Array Runtime} {t e : Nat} {r : Reply} {tasks : List Task}
  {a : Option Reply} {c : Notch}

/-- What a task does about reports: nothing, or it makes one. -/
inductive Speaks (task : Task) (r : Reply) (tasks : List Task) : Prop
  | nothing (hquiet : tasks.all isMute = true) (hreports : ∀ e, task.reports e r = 0)
      (hrequest : task.isRequest = true → tasks = []) : Speaks task r tasks
  | suspended {e k : Nat} {id : ThreadId} (htask : task = .suspended e id) (hr : r = .count k)
      (htasks : tasks = [.dispatch e (.threadSuspended id k), .selfPoll e id]) : Speaks task r tasks
  | resumed {e k : Nat} {id : ThreadId} (htask : task = .resumed e id) (hr : r = .change (some k))
      (htasks : tasks = [.dispatch e (.threadResumed id k)]) : Speaks task r tasks

theorem isMute_of_isPlain (h : task.isPlain = true) : task.isMute = true := by
  cases task with
  | dispatch | suspended | resumed => cases h
  | _ => rfl

theorem isMute_of_isOpening (h : task.isOpening = true) : task.isMute = true :=
  isMute_of_isPlain (isPlain_of_isOpening h)

theorem isReport_of_isMute (h : task.isMute = true) : task.isReport = false := by
  cases task <;> first | rfl | cases h

/-- **Reports are made of what was counted, and of nothing else.** -/
theorem Produces.speaks (h : task.Produces engines t r tasks a c) (hd : task.Defers rest) :
    task.Speaks r tasks := by
  cases h with
  | @enters hold _ _ _ inner =>
    refine .nothing ?_ (fun _ => rfl) nofun
    rw [List.all_cons, List.all_cons, isMute_of_isPlain (isPlain_of_blocking hd)]
    rfl
  | @nests hold _ inner =>
    exact .nothing (by simp [isMute_of_isPlain (isPlain_of_blocking hd)]) (fun _ => rfl) nofun
  | aside htask htasks =>
    refine .nothing (World.all_imp (fun h => isMute_of_isPlain (isPlain_of_isSide h)) htasks)
      (fun e => ?_) fun hrequest => ?_
    · cases task <;> first | rfl | cases htask
    · cases task <;> first | cases hrequest | cases htask
  | proceeds htask htasks =>
    refine .nothing (World.all_imp (fun h => isMute_of_isPlain (isPlain_of_isProgram h)) htasks)
      (fun e => ?_) fun hrequest => ?_
    · cases task <;> first | rfl | cases htask
    · cases task <;> first | cases hrequest | cases htask
  | strays htask =>
    refine .nothing rfl (fun e => ?_) fun _ => rfl
    cases task <;> first | rfl | cases htask
  | @operates e op _ x expired registry p hx hstep =>
    have hsection := Registry.section_of_step hstep
    have hmute : ∀ q : Progress, (q.tasks e).all isMute = true := fun q => by cases q <;> rfl
    refine .nothing (hmute p) (fun _ => rfl) fun hrequest => ?_
    cases hsection <;> first | rfl | cases hrequest
  | passes htask | polls htask =>
    rcases htask with rfl | ⟨id, rfl⟩ <;> exact .nothing rfl (fun _ => rfl) nofun
  | refusesObject htask | stores htask =>
    cases task <;> first | exact .nothing rfl (fun _ => rfl) fun h => by cases h | cases htask
  | suspends => exact .suspended rfl rfl rfl
  | suspendsNobody hr | resumesNobody hr =>
    refine .nothing rfl (fun e => ?_) nofun
    cases r <;> first | rfl | exact (hr _ rfl).elim
  | resumes => exact .resumed rfl rfl rfl
  | serves | drains => exact .nothing (by simp [isMute, isReport]) (fun _ => rfl) nofun
  | _ => exact .nothing rfl (fun _ => rfl) nofun

end Task

end Reports

def Stack.owes (e : Nat) (s : Stack) : Multiset Notice :=
  s.tasks.head?.elim 0 fun task => task.reports e s.reply

def Stack.tells (e : Nat) : Stack → Multiset Notice := Stack.dispatches e Notice.isOfThread

/-- The call on a registry that stands at the head of a stack. -/
def Stack.call? (s : Stack) : Option (Nat × Operation) :=
  match s.tasks.head? with
  | some (.registry e op) => some (e, op)
  | _ => none

namespace World

variable {w : World} {m : Move} {t e : Nat} {id : ThreadId} {r : Registry} {x : Stack}
  {reply : Reply} {k : Mutator} (s : EngineSpec) (label : String) (moves : List Move)

section Counting

/-- How many suspensions of a thread a step counts. -/
def raises (e : Nat) (id : ThreadId) (x : World × Stack) : Nat :=
  if x.2.call? = some (e, .requestSuspend id) ∧ (x.1.record e id).isSome then 1 else 0

/-- How many resumptions of a thread take effect in a step. -/
def lowers (e : Nat) (id : ThreadId) (x : World × Stack) : Nat :=
  if x.2.call? = some (e, .resume id) ∧ (x.1.record e id).any (0 < ·.suspendCount) then 1 else 0

/-- How many suspensions of a thread were counted. -/
def raised (w : World) (e : Nat) (id : ThreadId) (moves : List Move) : Nat :=
  ((w.steps moves).map (raises e id)).sum

/-- How many resumptions of a thread took effect. -/
def lowered (w : World) (e : Nat) (id : ThreadId) (moves : List Move) : Nat :=
  ((w.steps moves).map (lowers e id)).sum

theorem callOf_eq (hx : w.stackOf t = some x) : w.callOf t = x.call? := by
  obtain ⟨y, hy, htasks, -⟩ := exists_thread_of_stackOf hx
  have hnext : w.nextTask t = x.tasks.head? := by rw [nextTask, hy, Option.bind_some, htasks]
  rw [callOf, hnext]
  rfl

theorem exists_stackOf_of_callOf (h : w.callOf t = some (e, op)) :
    ∃ rest reply, w.stackOf t = some ⟨.registry e op :: rest, reply⟩ := by
  obtain ⟨y, rest, hy, htasks⟩ := exists_tasks_of_callOf h
  exact ⟨rest, y.reply, by rw [stackOf, hy, Option.map_some, Thread.stack, htasks]⟩

theorem call?_of_taken (hcall : ∀ t op, m = .step t → w.callOf t = some (e, op) → w.step t = none)
    (hx : w.taken m = some x) (op : Operation) : x.call? ≠ some (e, op) := by
  intro hop
  cases m with
  | step t =>
    by_cases hsome : (w.step t).isSome = true
    · rw [taken_of_some hsome] at hx
      rw [hcall t op rfl ((callOf_eq hx).trans hop)] at hsome
      cases hsome
    · rw [taken, if_neg hsome] at hx
      cases hx
  | _ => cases hx

theorem mutators_eq_nil (hr : w.crew.registries[e]? = none)
    (hr' : (w.move m).crew.registries[e]? = some r') : r'.mutators = [] := by
  have hturn := turn_move (w := w) m
  generalize (w.move m).crew = c at hturn hr'
  cases hturn with
  | acts _ _ hact => exact (hact.isFresh_registry hr hr').1
  | _ =>
    cases hr.symm.trans hr'

/-- What sections and interrupts keep of the records of threads, and newcomers have, holds of all
records. -/
theorem record_induction {P : Mutator → Prop} (masked : ∀ {m m'}, m'.masked = m.masked → P m → P m')
    (turns : ∀ {r r' : Registry} {id op m'},
      r.Turns r' id op (r.get? id) (some m') → (∀ m, r.get? id = some m → P m) → P m')
    (moves : List Move) (hk : ((start s label).after moves).crew.record e id = some k) : P k := by
  induction moves using List.reverseRecOn generalizing k with
  | nil =>
    obtain ⟨r, hr, hget⟩ := Option.bind_eq_some_iff.mp hk
    rw [Registry.get?, ((isFresh_start s label).registries hr).1] at hget
    cases hget
  | append_singleton past last ih =>
    rw [after_append] at hk
    obtain ⟨r', hr', hget'⟩ := Option.bind_eq_some_iff.mp hk
    cases hr : ((start s label).after past).crew.registries[e]? with
    | none =>
      rw [Registry.get?, mutators_eq_nil hr hr'] at hget'
      cases hget'
    | some r =>
      have hold : ∀ m, r.get? id = some m → P m :=
        fun m hm => ih (by rw [Crew.record, hr]; exact hm)
      obtain ⟨r₁, hr₁, hregisters⟩ := exists_registers last hr
      cases hr₁.symm.trans hr'
      cases hregisters with
      | nothing _ hmasked =>
        have hsame : (r.get? id).map Mutator.masked = some k.masked := by
          rw [← Registry.get?_masked, ← hmasked, Registry.get?_masked, hget']
          rfl
        obtain ⟨m, hm, hmm⟩ := Option.map_eq_some_iff.mp hsame
        exact masked hmm.symm (hold m hm)
      | call _ _ _ hstep =>
        have hturns := (Registry.section_of_step hstep).turns id
        rw [hget'] at hturns
        exact turns hturns hold

/-- Counts are those of suspensions, and nobody has one who was never attached. -/
structure Reckons (w : World) (e : Nat) (id : ThreadId) (moves : List Move) : Prop where
  counts : ∀ {r : Registry} {n : Nat}, (w.after moves).crew.registries[e]? = some r →
    r.countOf id = some n →
    (∀ past, past <+: moves → w.raised e id past ≤ w.lowered e id past + suspendCountMax) →
    n + w.lowered e id moves = w.raised e id moves
  coming : ∀ {r : Registry}, (w.after moves).crew.registries[e]? = some r → r.nextId ≤ id →
    w.raised e id moves = 0 ∧ w.lowered e id moves = 0
  absent : (w.after moves).crew.registries[e]? = none →
    w.raised e id moves = 0 ∧ w.lowered e id moves = 0

theorem recount_of_call {op : Operation} {k ups downs : Nat} (hr : w.crew.registries[e]? = some r)
    (hx : x.call? = some (e, op)) (hk : r.countOf id = some k) (hcount : k + downs = ups)
    (hfits : ups + raises e id (w, x) ≤ downs + lowers e id (w, x) + suspendCountMax) :
    op.recount id k + (downs + lowers e id (w, x)) = ups + raises e id (w, x) := by
  obtain ⟨m, hm, rfl⟩ := Option.map_eq_some_iff.mp hk
  have hrecord : w.record e id = some m.masked := by rw [record_of_registry hr, hm]; rfl
  have hmasked : m.masked.suspendCount = m.suspendCount := rfl
  unfold raises lowers at hfits ⊢
  simp only [hx, hrecord, Option.some.injEq, Prod.mk.injEq, true_and, Option.isSome_some, and_true,
    Option.any_some, hmasked, decide_eq_true_eq] at hfits ⊢
  cases op with
  | requestSuspend target =>
    by_cases hid : id = target
    · subst hid
      simp only [if_true, reduceCtorEq, false_and, if_false, Operation.recount] at hfits ⊢
      omega
    · have hne : target ≠ id := Ne.symm hid
      simp only [Operation.requestSuspend.injEq, hne, reduceCtorEq, false_and, if_false,
        Operation.recount, hid]
      omega
  | resume target =>
    by_cases hid : id = target
    · subst hid
      simp only [reduceCtorEq, if_false, true_and, Operation.recount, if_true]
      split <;> omega
    · have hne : target ≠ id := Ne.symm hid
      simp only [Operation.resume.injEq, hne, reduceCtorEq, false_and, if_false, Operation.recount,
        hid]
      omega
  | _ =>
    simp only [reduceCtorEq, false_and, if_false, Operation.recount]
    omega

theorem raised_snoc (moves : List Move) (m : Move) :
    w.raised e id (moves ++ [m]) = w.raised e id moves + ((w.after moves).taken m).elim 0 fun x =>
    raises e id (w.after moves, x) :=
  sum_steps_snoc _ moves m

theorem lowered_snoc (moves : List Move) (m : Move) :
    w.lowered e id (moves ++ [m]) = w.lowered e id moves + ((w.after moves).taken m).elim 0 fun x =>
    lowers e id (w.after moves, x) :=
  sum_steps_snoc _ moves m

theorem not_counted_of_record (hnone : w.record e id = none) :
    raises e id (w, x) = 0 ∧ lowers e id (w, x) = 0 := by
  unfold raises lowers
  rw [hnone]
  simp

theorem not_counted_of_call (hx : ∀ op, x.call? ≠ some (e, op)) :
    raises e id (w, x) = 0 ∧ lowers e id (w, x) = 0 :=
  ⟨if_neg fun h => hx _ h.1, if_neg fun h => hx _ h.1⟩

/-- **One move keeps counts right.** -/
theorem Reckons.snoc {moves : List Move} (h : w.Reckons e id moves)
    (hn : (w.after moves).crew.Numbered) (m : Move) : w.Reckons e id (moves ++ [m]) := by
  have hmoved : w.after (moves ++ [m]) = (w.after moves).move m := by rw [after_append]; rfl
  -- where nothing is counted the sums are as before
  have hsame : (∀ x, (w.after moves).taken m = some x → raises e id (w.after moves, x) = 0 ∧
        lowers e id (w.after moves, x) = 0) → w.raised e id (moves ++ [m]) = w.raised e id moves ∧
      w.lowered e id (moves ++ [m]) = w.lowered e id moves := by
    intro hzero
    rw [raised_snoc, lowered_snoc]
    cases hx : (w.after moves).taken m with
    | none => exact ⟨rfl, rfl⟩
    | some x =>
      rw [Option.elim_some, Option.elim_some, (hzero x hx).1, (hzero x hx).2]
      exact ⟨rfl, rfl⟩
  cases hr : (w.after moves).crew.registries[e]? with
  | none =>
    have hnone : (w.after moves).record e id = none := by rw [record_eq, Crew.record, hr]; rfl
    obtain ⟨hraised, hlowered⟩ := hsame fun _ _ => not_counted_of_record hnone
    obtain ⟨hups, hdowns⟩ := h.absent hr
    refine ⟨fun {r n} hr' hcount _ => ?_, fun _ _ => ?_, fun _ => ?_⟩
    · rw [hmoved] at hr'
      rw [Registry.countOf, Registry.get?, mutators_eq_nil hr hr'] at hcount
      cases hcount
    · rw [hraised, hlowered]
      exact ⟨hups, hdowns⟩
    · rw [hraised, hlowered]
      exact ⟨hups, hdowns⟩
  | some r =>
    obtain ⟨r', hr', hregisters⟩ := exists_registers m hr
    rw [← hmoved] at hr'
    have hcoming : r.nextId ≤ id → ∀ x,
        raises e id (w.after moves, x) = 0 ∧ lowers e id (w.after moves, x) = 0 := by
      intro hid x
      refine not_counted_of_record ?_
      rw [record_of_registry hr, Option.map_eq_none_iff]
      refine Option.eq_none_iff_forall_ne_some.mpr fun k hk => ?_
      obtain ⟨hmem, rfl⟩ := Registry.mem_of_get? hk
      exact absurd ((hn hr).issued _ (List.mem_map_of_mem hmem)) (Nat.not_lt.mpr hid)
    refine ⟨fun {q n} hq hcount hfits => ?_, fun {q} hq hid => ?_, fun hnone => ?_⟩
    · cases hr'.symm.trans hq
      have hearlier :=
        fun past (hpast : past <+: moves) => hfits past (hpast.trans (List.prefix_append _ _))
      cases hregisters with
      | nothing hcall hmasked =>
        obtain ⟨hraised, hlowered⟩ :=
          hsame fun x hx => not_counted_of_call (call?_of_taken hcall hx)
        rw [hraised, hlowered]
        rw [Registry.countOf_of_masked hmasked] at hcount
        exact h.counts hr hcount hearlier
      | @call t op expired _ p hm hawake hcall hstep =>
        subst hm
        obtain ⟨rest, reply, hx⟩ := exists_stackOf_of_callOf hcall
        have htaken := (taken_of_some hawake).trans hx
        rcases (Registry.section_of_step hstep).countOf hcount with ⟨k, hk, rfl⟩ | ⟨hid, rfl⟩
        · have hnow := hfits _ (List.prefix_refl _)
          rw [raised_snoc, lowered_snoc, htaken, Option.elim_some, Option.elim_some] at hnow ⊢
          exact recount_of_call hr ((callOf_eq hx).symm.trans hcall) hk
            (h.counts hr hk hearlier) hnow
        · obtain ⟨hraised, hlowered⟩ := hsame fun x _ => hcoming hid.ge x
          obtain ⟨hups, hdowns⟩ := h.coming hr hid.ge
          rw [hraised, hlowered, hups, hdowns]
    · cases hr'.symm.trans hq
      have hid' : r.nextId ≤ id := by
        cases hregisters with
        | nothing _ hmasked => exact (congrArg Registry.nextId hmasked).symm.le.trans hid
        | call _ _ _ hstep => exact (Registry.section_of_step hstep).nextId_le.trans hid
      obtain ⟨hraised, hlowered⟩ := hsame fun x _ => hcoming hid' x
      rw [hraised, hlowered]
      exact h.coming hr hid'
    · rw [hr'] at hnone
      cases hnone

theorem reckons_after : (start s label).Reckons e id moves := by
  induction moves using List.reverseRecOn with
  | nil =>
    refine ⟨fun {r n} hr hcount _ => ?_, fun _ _ => ⟨rfl, rfl⟩, fun _ => ⟨rfl, rfl⟩⟩
    have hempty := ((isFresh_start s label).registries hr).1
    rw [Registry.countOf, Registry.get?, hempty] at hcount
    cases hcount
  | append_singleton moves m ih => exact ih.snoc (numbered_after s label moves) m

end Counting

section Telling

/-- What a step makes somebody report about suspensions, of those who count one and report it
next. -/
def dues (e : Nat) (x : World × Stack) : Multiset Notice :=
  match x.2.tasks with
  | .registry k (.requestSuspend id) :: .suspended .. :: _ =>
    if k = e then
      (x.1.record k id).elim 0 fun m =>
        {.threadSuspended id (min (m.suspendCount + 1) suspendCountMax)}
    else 0
  | .registry k (.resume id) :: .resumed .. :: _ =>
    if k = e then
      (x.1.record k id).elim 0 fun m => if m.suspendCount = 0 then 0
        else {.threadResumed id (m.suspendCount - 1)}
    else 0
  | _ => 0

/-- Whether a report stands behind its request, and on an engine that exists. -/
def Follows (size : Nat) (task : Task) (rest : List Task) : Prop :=
  (∀ e id, rest.head? = some (.suspended e id) →
    task = .registry e (.requestSuspend id) ∧ e < size) ∧
  ∀ e id, rest.head? = some (.resumed e id) → task = .registry e (.resume id) ∧ e < size

variable {n : Nat} {task : Task} {rest tasks : List Task} {r : Reply}
  (h : ∀ x ∈ rest.head?, x.isReport = false)

include h

theorem follows_of_head : Follows n task rest := by
  refine ⟨fun e id hhead => ?_, fun e id hhead => ?_⟩ <;> cases h _ hhead

omit h

theorem Follows.head (h : Follows n task rest) (htask : task.isRequest = false) :
    ∀ x ∈ rest.head?, x.isReport = false := by
  intro x hx
  cases x with
  | suspended e id =>
    rw [(h.1 e id hx).1] at htask
    cases htask
  | resumed e id =>
    rw [(h.2 e id hx).1] at htask
    cases htask
  | _ => rfl

theorem arranged_follows (htasks : ∀ x ∈ tasks, x.isReport = false)
    (hrest : Arranged (Follows n) rest)
    (hhead : tasks ≠ [] → ∀ x ∈ rest.head?, x.isReport = false) :
    Arranged (Follows n) (tasks ++ rest) := by
  induction tasks with
  | nil => exact hrest
  | cons task tasks ih =>
    have hhead' := hhead (List.cons_ne_nil _ _)
    refine ⟨follows_of_head ?_,
      ih (fun x hx => htasks x (List.mem_cons_of_mem _ hx)) fun _ => hhead'⟩
    cases tasks with
    | nil => exact hhead'
    | cons x _ =>
      intro y hy
      cases hy
      exact htasks x (List.mem_cons_of_mem _ (List.mem_cons_self ..))

theorem Follows.mono (hle : n ≤ n') (h : Follows n task rest) : Follows n' task rest :=
  ⟨fun e id hhead => ⟨(h.1 e id hhead).1, (h.1 e id hhead).2.trans_le hle⟩,
    fun e id hhead => ⟨(h.2 e id hhead).1, (h.2 e id hhead).2.trans_le hle⟩⟩

theorem isKept_follows :
    IsKept (start s label) fun past => Follows ((start s label).after past).engines.size where
  mono h := h.mono (size_engines_le_after _ _)
  serve _ _ := follows_of_head nofun
  perform _ _ := follows_of_head nofun
  opening := by
    intro past t i rest tasks h hi hrest
    refine Arranged.imp (fun _ _ => Follows.mono (size_engines_le_after past _)) ?_
    have hhead := hi.head rfl
    have hopening : ∀ {tail : List Task}, tail.all Task.isOpening = true →
        ∀ x ∈ tail, x.isReport = false :=
      fun htail x hx =>
        Task.isReport_of_isMute (Task.isMute_of_isOpening (List.all_eq_true.mp htail x hx))
    have htailed : ∀ {tail}, tail.all Task.isOpening = true →
        ∀ x ∈ (tail ++ rest).head?, x.isReport = false := by
      intro tail htail
      cases tail with
      | nil => exact hhead
      | cons y _ =>
        rintro x ⟨⟩
        exact hopening htail y (List.mem_cons_self ..)
    have hthere : ∀ {e}, Known ((start s label).after past).engines [] e →
        e < ((start s label).after past).engines.size := by
      rintro e (⟨x, hx⟩ | ⟨a, ha, -⟩)
      · exact (Array.getElem?_eq_some_iff.mp hx).1
      · cases ha
    cases h with
    | plain h => exact arranged_follows (hopening h) hrest fun _ => hhead
    | collects | drains =>
      refine arranged_follows (fun x hx => ?_) hrest fun _ => hhead
      simp only [List.mem_cons, List.not_mem_nil, or_false] at hx
      rcases hx with rfl | rfl <;> rfl
    | suspends he htail =>
      refine ⟨⟨?_, ?_⟩, follows_of_head (htailed htail),
        arranged_follows (hopening htail) hrest fun _ => hhead⟩
      · rintro _ _ ⟨⟩
        exact ⟨rfl, hthere he⟩
      · rintro _ _ ⟨⟩
    | resumes he htail =>
      refine ⟨⟨?_, ?_⟩, follows_of_head (htailed htail),
        arranged_follows (hopening htail) hrest fun _ => hhead⟩
      · rintro _ _ ⟨⟩
      · rintro _ _ ⟨⟩
        exact ⟨rfl, hthere he⟩
  produces := by
    intro past t task rest tasks r a c hs h htask hrest
    refine Arranged.imp (fun _ _ => Follows.mono (size_engines_le_after past _)) ?_
    have hdefers := (arranged_after (isKept_defers (start s label)) past _ hs).1
    cases h.speaks hdefers with
    | nothing hmute _ hrequest =>
      refine arranged_follows (fun x hx =>
        Task.isReport_of_isMute (List.all_eq_true.mp hmute x hx)) hrest fun hne => ?_
      exact htask.head (Bool.eq_false_iff.mpr fun hr => hne (hrequest hr))
    | suspended htask' _ htasks | resumed htask' _ htasks =>
      subst htask' htasks
      refine arranged_follows (fun x hx => ?_) hrest fun _ => htask.head rfl
      simp only [List.mem_cons, List.not_mem_nil, or_false] at hx
      rcases hx with rfl | rfl <;> rfl

theorem record_of_engine {x : Runtime} (hx : w.engines[e]? = some x) :
    w.record e id = (x.registry.get? id).map Mutator.masked := by
  rw [record, hx, Option.bind_some]

include h

theorem dues_of_head : dues e (w, ⟨task :: rest, r⟩) = 0 := by
  unfold dues
  split
  · next heq =>
      cases heq
      cases h _ rfl
  · next heq =>
      cases heq
      cases h _ rfl
  · rfl

theorem owes_of_head : Stack.owes e ⟨rest, r⟩ = 0 := by
  cases rest with
  | nil => rfl
  | cons x _ =>
    have hx : x.isReport = false := h x rfl
    cases x <;> first | rfl | cases hx

omit h

/-- **Whoever counts a suspension is about to report what was counted.** -/
theorem owes_of_produces (hd : task.Defers rest)
    (hf : Follows w.engines.size task rest) (h : task.Produces w.engines t r tasks a c) :
    Stack.owes e ⟨tasks ++ rest, a.getD r⟩ = dues e (w, ⟨task :: rest, r⟩) := by
  have hfree : (∀ x ∈ rest.head?, x.isReport = false) →
      Stack.owes e ⟨tasks ++ rest, a.getD r⟩ = dues e (w, ⟨task :: rest, r⟩) := by
    intro hhead
    rw [dues_of_head hhead]
    refine owes_of_head fun x hx => ?_
    cases tasks with
    | nil => exact hhead x hx
    | cons y more =>
      cases hx
      cases h.speaks hd with
      | nothing hmute =>
        exact Task.isReport_of_isMute (List.all_eq_true.mp hmute x (List.mem_cons_self ..))
      | suspended _ _ htasks | resumed _ _ htasks =>
        cases htasks
        rfl
  cases rest with
  | nil => exact hfree fun x hx => by cases hx
  | cons y more =>
    cases y with
    | suspended k id =>
      obtain ⟨rfl, hk⟩ := hf.1 k id rfl
      obtain ⟨x, expired, registry, p, hx, hstep, rfl, rfl, -⟩ := produces_registry h hk
      have hrecord : w.record k id = _ := record_of_engine hx
      cases Registry.section_of_step hstep with
      | misses hop hnone =>
        rcases hop with heq | heq <;> cases heq
        rw [hnone] at hrecord
        simp only [dues, hrecord, Option.map_none, Option.elim_none, ite_self]
        rfl
      | raises hm =>
        rw [hm] at hrecord
        simp only [dues, hrecord]
        rfl
    | resumed k id =>
      obtain ⟨rfl, hk⟩ := hf.2 k id rfl
      obtain ⟨x, expired, registry, p, hx, hstep, rfl, rfl, -⟩ := produces_registry h hk
      have hrecord : w.record k id = _ := record_of_engine hx
      cases Registry.section_of_step hstep with
      | misses hop hnone =>
        rcases hop with heq | heq <;> cases heq
        rw [hnone] at hrecord
        simp only [dues, hrecord, Option.map_none, Option.elim_none, ite_self]
        rfl
      | @finds _ m hm hzero =>
        rw [hm] at hrecord
        have hcount : m.masked.suspendCount = 0 := hzero
        simp only [dues, hrecord, Option.map_some, Option.elim_some, if_pos hcount, ite_self]
        rfl
      | @lowers _ m hm hmany =>
        rw [hm] at hrecord
        have hcount : m.masked.suspendCount ≠ 0 := Nat.ne_of_gt (Nat.lt_of_succ_lt hmany)
        simp only [dues, hrecord, Option.map_some, Option.elim_some, if_neg hcount]
        rfl
      | @leavesHeld _ m hm hlast | @frees _ m hm hlast =>
        rw [hm] at hrecord
        have hcount : m.masked.suspendCount = 1 := hlast
        simp only [dues, hrecord, Option.map_some, Option.elim_some, hcount]
        rfl
    | _ => exact hfree fun x hx => by cases hx; rfl

def due (w : World) (e : Nat) (moves : List Move) : Multiset Notice :=
  ((w.steps moves).map (dues e)).sum

def logged (w : World) (e : Nat) (moves : List Move) : Multiset Notice :=
  ((w.steps moves).map fun x => x.2.owes e).sum

def told (w : World) (e : Nat) (moves : List Move) : Multiset Notice :=
  ((w.steps moves).map fun x => x.2.tells e).sum

theorem balanced_owes (e : Nat) :
    (start s label).Balanced (Stack.owes e) (dues e) fun x => x.2.owes e where
  serve _ := rfl
  idle _ := rfl
  perform _ _ := rfl
  steps := by
    intro past t task rest tasks r a c hs h
    have hdefers := (arranged_after (isKept_defers (start s label)) past _ hs).1
    have hfollows := (arranged_after (isKept_follows s label) past _ hs).1
    rw [owes_of_produces hdefers hfollows h, add_comm]
  performs := by
    intro past t i rest tasks r a hs h
    obtain rfl : rest = [] := (arranged_after (isKept_defers (start s label)) past _ hs).1
    rw [dues_of_head fun x hx => by cases hx]
    refine congrArg _ (Eq.symm (owes_of_head fun x hx => ?_))
    rw [List.append_nil] at hx
    cases h with
    | plain h =>
      have hopens := List.all_eq_true.mp h x (List.mem_of_mem_head? hx)
      exact Task.isReport_of_isMute (Task.isMute_of_isOpening hopens)
    | collects | drains | suspends | resumes =>
      cases hx
      rfl

theorem tells_of_isMute (h : task.isMute = true) : task.tells e = 0 := by
  cases task with
  | dispatch k n =>
    have hn : n.isOfThread = false := by simpa [Task.isMute] using h
    simp [Task.tells, Task.dispatches, hn]
  | _ => rfl

theorem balanced_tells (e : Nat) : (start s label).Balanced (fun x =>
      (x.tasks.map (Task.tells e)).sum) (fun x => x.2.owes e) fun x => x.2.tells e := by
  refine balanced_of_tasks (fun _ => rfl) (fun _ => rfl) (fun task h => ?_) rfl ?_
  · cases task <;> first | rfl | cases h
  · intro past t task rest tasks r a c hs h
    have hdefers := (arranged_after (isKept_defers (start s label)) past _ hs).1
    show task.reports e r + task.tells e = task.tells e + (tasks.map (Task.tells e)).sum
    rw [add_comm]
    congr 1
    cases h.speaks hdefers with
    | nothing hmute hreports => rw [hreports, sum_eq_zero_of_all (fun _ => tells_of_isMute) hmute]
    | suspended htask hr htasks | resumed htask hr htasks =>
      subst htask hr htasks
      simp [Task.tells, Task.dispatches, Task.reports, Notice.isOfThread]

/-- Whether no thread has anything to log or to tell about a suspension. -/
def IsSilent (w : World) : Prop := ∀ t x, w.stackOf t = some x → x.tasks.all Task.isSilent = true

theorem isMute_of_isSilent (h : task.isSilent = true) : task.isMute = true := by
  cases task <;> first | rfl | exact h

theorem load_owes_of_isMute (h : ∀ t x, w.stackOf t = some x → x.tasks.all Task.isMute = true) :
    w.load (Stack.owes e) = 0 := by
  refine load_eq_zero fun t x hx => owes_of_head fun task htask => ?_
  exact Task.isReport_of_isMute (List.all_eq_true.mp (h t x hx) task (List.mem_of_mem_head? htask))

theorem load_tells_of_isMute (h : ∀ t x, w.stackOf t = some x → x.tasks.all Task.isMute = true) :
    w.load (fun x => (x.tasks.map (Task.tells e)).sum) = 0 :=
  load_eq_zero fun t x hx => sum_eq_zero_of_all (fun _ => tells_of_isMute) (h t x hx)

theorem IsSilent.load (h : w.IsSilent) :
    w.load (Stack.noticesFor e agent Notice.isOfThread) = 0 := by
  refine load_eq_zero fun t x hx => List.sum_eq_zero fun y hy => ?_
  obtain ⟨task, htask, rfl⟩ := List.mem_map.mp hy
  have hsilent := List.all_eq_true.mp (h t x hx) task htask
  cases task with
  | deliver k n recipients =>
    refine congrArg _ (if_neg fun hk => ?_)
    simp [Task.isSilent, hk.2] at hsilent
  | _ => rfl

/-- **Whoever is registered hears once of each suspension and of each resumption that takes effect
meanwhile.** -/
theorem heard_of_isSilent (before during : List Move)
    (hbefore : ((start s label).after before).IsSilent)
    (hafter : ((start s label).after (before ++ during)).IsSilent)
    (hagent : ∀ past, past <+: during →
      ((start s label).after (before ++ past)).Informs e agent Capabilities.threadEvents) :
    (((start s label).after before).heard e agent Notice.isOfThread during : Multiset Notice) =
      ((start s label).after before).due e during := by
  have hmute : ∀ {w : World}, w.IsSilent → ∀ t x, w.stackOf t = some x →
      x.tasks.all Task.isMute = true := fun h t x hx => all_imp isMute_of_isSilent (h t x hx)
  have hallow : ∀ n (c : Capabilities), n.isOfThread = true → c.threadEvents = true →
      c.allow n = true := by
    intro n c hn hc
    cases n <;> first | exact hc | cases hn
  have hlogs := (balanced_owes s label e).between before during
  have htells := (balanced_tells s label e).between before during
  have hheard := heard_between s label hallow before during hagent
  rw [load_owes_of_isMute (hmute hbefore), load_owes_of_isMute (hmute hafter), zero_add,
    add_zero] at hlogs
  rw [load_tells_of_isMute (hmute hbefore), load_tells_of_isMute (hmute hafter), zero_add,
    add_zero] at htells
  rw [hbefore.load, hafter.load, zero_add, add_zero] at hheard
  exact hheard.symm.trans (htells.symm.trans hlogs.symm)

end Telling

section Parks

theorem exists_record_of_parked {hold : Hold} {r : Reply} (hl : w.crew.Lawful)
    (hs : w.stackOf t = some ⟨.registry e (.parked id hold) :: rest, r⟩) :
    ∃ x k, w.engines[e]? = some x ∧ x.registry.get? id = some k := by
  obtain ⟨y, hy, htasks, -⟩ := exists_thread_of_stackOf hs
  have hactor : w.crew.actors[t]? = some y.actor := by rw [getElem?_actors, hy]; rfl
  have hposture : Posture y.actor.badge (.registry e (.parked id hold) :: rest) := by
    have h := hl.posture hactor
    rwa [show y.actor.tasks = y.tasks from rfl, htasks] at h
  have hbadge := Crew.badge_of_isOwn (b := ⟨e, id⟩) ⟨_, rfl, rfl⟩ hposture
  obtain ⟨r, k, hr, -, hk⟩ := hl.exists_record hactor hbadge (by
    rw [show y.actor.tasks = y.tasks from rfl, htasks]
    intro h
    cases h)
  rw [getElem?_registries_crew] at hr
  obtain ⟨x, hx, rfl⟩ := Option.map_eq_some_iff.mp hr
  exact ⟨x, k, hx, hk⟩

/-- **A thread leaves its park only if neither a suspension nor a pause holds it.** -/
theorem free_of_leaves (hl : w.crew.Lawful)
    (hs : w.stackOf t = some ⟨.registry e (.parked id .any) :: rest, reply⟩)
    (hleft : (w.move m).stackOf t ≠ w.stackOf t) : ∃ x k, w.engines[e]? = some x ∧
    w.record e id = some k ∧ k.suspendCount = 0 ∧ ¬x.registry.Pauses id := by
  obtain ⟨x, k, hx, hk⟩ := exists_record_of_parked hl hs
  have hmove := restacks_move w m t
  rw [hs] at hmove hleft
  generalize (w.move m).stackOf t = after at hmove hleft
  cases hmove with
  | same => exact (hleft rfl).elim
  | steps hm h =>
    obtain ⟨x', expired, registry, p, hx', hstep, rfl, rfl, -⟩ :=
      produces_registry h (Array.getElem?_eq_some_iff.mp hx).1
    cases hx.symm.trans hx'
    cases Registry.section_of_step hstep with
    | misses hop => simp at hop
    | sleepsOn => exact (hleft rfl).elim
    | goesOn hfree =>
      obtain ⟨hp, hcount⟩ := Registry.free_of_holds _ hk hfree
      exact ⟨x, k.masked, hx, by rw [record_of_engine hx, hk]; rfl, hcount rfl, hp⟩

/-- **A thread that neither a suspension nor a pause holds leaves its park** when it looks, and
runs. -/
theorem runs_of_free {x : Runtime} (hd : w.crew.Detained)
    (hs : w.stackOf t = some ⟨.registry e (.parked id .any) :: rest, reply⟩)
    (hx : w.engines[e]? = some x) (hk : w.record e id = some k) (hcount : k.suspendCount = 0)
    (hfree : ¬x.registry.Pauses id) : (w.move (.step t)).stackOf t = some ⟨rest, reply⟩ ∧ ∃ k',
    (w.move (.step t)).record e id = some k' ∧ k'.status = .running ∧ k'.pollRequested = false := by
  rw [record_of_engine hx] at hk
  obtain ⟨j, hj, rfl⟩ := Option.map_eq_some_iff.mp hk
  have hzero : j.suspendCount = 0 := hcount
  have hholds : x.registry.holds id .any = false := by
    refine Bool.eq_false_iff.mpr fun hholds => ?_
    obtain ⟨i, hi, ⟨-, hpos⟩ | hp⟩ := Registry.holds_iff.mp hholds
    · cases hj.symm.trans hi
      omega
    · exact hfree hp
  have hr : w.crew.registries[e]? = some x.registry := by rw [getElem?_registries_crew, hx]; rfl
  obtain ⟨expired, r', p, hstep, hstack, hr'⟩ := exists_operation hd hs hr fun hheld => by
    cases hholds.symm.trans hheld
  cases Registry.section_of_step hstep with
  | misses hop => simp at hop
  | sleepsOn hheld => cases hholds.symm.trans hheld
  | goesOn =>
    have hruns : j.resumeRunning = { j with status := .running, pollRequested := false } := by
      rw [Mutator.resumeRunning, hzero, if_neg (lt_irrefl 0)]
    refine ⟨hstack, j.resumeRunning.masked, ?_, by rw [hruns]; rfl, by rw [hruns]; rfl⟩
    have hget : (x.registry.update id Mutator.resumeRunning).get? id = some j.resumeRunning :=
      (Registry.get?_update (fun _ => Mutator.id_resumeRunning) hj).trans (by rw [if_pos rfl])
    rw [record_of_registry hr']
    exact congrArg (Option.map Mutator.masked) hget

end Parks

section Nesting

theorem step_of_stackOf (hs : w.stackOf t = some ⟨task :: rest, reply⟩)
    (hrun : (w.take t rest).runTask t task = some v) :
    w.step t = some (v.modifyThread t fun x => { x with expired := false }) := by
  obtain ⟨y, hy, htasks, -⟩ := exists_thread_of_stackOf hs
  simp only [step, hy, htasks, hrun, Option.map_some]

theorem idles_of_resume (hd : w.crew.Detained)
    (hs : w.stackOf t = some ⟨resumeTasks e id ++ rest, reply⟩)
    (hk : w.record e id = some k) (hcount : k.suspendCount = 0) :
    (w.move (.step t)).stackOf t = some ⟨.resumed e id :: rest, .change none⟩ ∧
    ∀ target, (w.move (.step t)).record e target = w.record e target := by
  obtain ⟨x, hx, hmasked⟩ := Option.bind_eq_some_iff.mp hk
  obtain ⟨j, hj, rfl⟩ := Option.map_eq_some_iff.mp hmasked
  have hzero : j.suspendCount = 0 := hcount
  have hr : w.crew.registries[e]? = some x.registry := by rw [getElem?_registries_crew, hx]; rfl
  obtain ⟨expired, r', p, hstep, hstack, hr'⟩ := exists_operation hd hs hr fun hno => hno
  have hrecord : ∀ target, (w.move (.step t)).record e target =
      (r'.get? target).map Mutator.masked := fun _ => record_of_registry hr'
  cases Registry.section_of_step hstep with
  | misses hop hnone =>
    rcases hop with hno | hno <;> cases hno
    cases hnone.symm.trans hj
  | finds => exact ⟨hstack, fun target => (hrecord target).trans (record_of_registry hr).symm⟩
  | lowers hm hmany | leavesHeld hm hmany | frees hm hmany =>
    cases hm.symm.trans hj
    omega

theorem answers_of_resumed (hs : w.stackOf t = some ⟨.resumed e id :: rest, .change none⟩) :
    (w.move (.step t)).stackOf t = some ⟨rest, .count 0⟩ := by
  have hmove := restacks_move w (.step t) t
  rw [hs] at hmove
  generalize (w.move (.step t)).stackOf t = after at hmove
  cases hmove with
  | same hsame =>
    rw [step_of_stackOf hs rfl] at hsame
    cases hsame rfl
  | steps hm h =>
    cases h with
    | resumesNothing => rfl
    | resumesNobody hr => exact (hr _ rfl).elim
    | _ => first | contradiction | simp_all

theorem journal_log {x : Runtime} (hx : w.engines[e]? = some x) (event : Event) :
    ∃ y, (w.log e event).engines[e]? = some y ∧ y.journal = (x.journal.log event).1 := by
  unfold log
  rw [hx]
  refine ⟨{ x with journal := (x.journal.log event).1 }, ?_, rfl⟩
  show (w.engines.modify e _)[e]? = _
  rw [Array.getElem?_modify, if_pos rfl, hx]
  rfl

theorem logs_of_owes {s : Stack} {n : Notice} {x : Runtime} (hs : w.stackOf t = some s)
    (hn : s.owes e = {n}) (hx : w.engines[e]? = some x) : ∃ event y, n.event? = some event ∧
    (w.move (.step t)).engines[e]? = some y ∧ y.journal = (x.journal.log event).1 := by
  obtain ⟨tasks, reply⟩ := s
  cases tasks with
  | nil => cases (Multiset.singleton_ne_zero n) hn.symm
  | cons task rest =>
    obtain ⟨y, hy, -, hreply⟩ := exists_thread_of_stackOf hs
    have hreplyOf : (w.take t rest).replyOf t = reply := (replyOf_take hy rest).trans hreply
    change task.reports e reply = {n} at hn
    unfold Task.reports at hn
    split at hn
    · next k id c =>
        split at hn
        · next hk =>
            subst hk
            obtain ⟨z, hz, hjournal⟩ := journal_log
              (w := w.take t rest) hx (.threadSuspended (ThreadId.display id) c)
            refine ⟨_, z, by rw [← Multiset.singleton_inj.mp hn]; rfl, ?_, hjournal⟩
            rw [move, step_of_stackOf hs rfl]
            simp only [suspended, hreplyOf]
            exact hz
        · cases (Multiset.singleton_ne_zero n) hn.symm
    · next k id c =>
        split at hn
        · next hk =>
            subst hk
            obtain ⟨z, hz, hjournal⟩ := journal_log
              (w := (w.take t rest).answer t (.count c)) hx
              (.threadResumed (ThreadId.display id) c)
            refine ⟨_, z, by rw [← Multiset.singleton_inj.mp hn]; rfl, ?_, hjournal⟩
            rw [move, step_of_stackOf hs rfl]
            simp only [resumed, hreplyOf]
            exact hz
        · cases (Multiset.singleton_ne_zero n) hn.symm
    · cases (Multiset.singleton_ne_zero n) hn.symm

/-- How suspensions and resumptions of a thread and the pauses of others go together in a run. -/
structure NestsSuspensions (w : World) (e : Nat) (id : ThreadId) (moves : List Move) : Prop where
  /-- The count of a thread is that of the suspensions that were not taken back, unless more were
  outstanding at some time than can be counted. -/
  counts : (∀ past, past <+: moves → w.raised e id past ≤ w.lowered e id past + suspendCountMax) →
    ∀ {k : Mutator}, (w.after moves).record e id = some k →
      k.suspendCount + w.lowered e id moves = w.raised e id moves
  /-- A resumption of a thread that is not suspended changes nothing … -/
  idles : ∀ {t : Nat} {rest : List Task} {reply : Reply} {k : Mutator},
    (w.after moves).stackOf t = some ⟨resumeTasks e id ++ rest, reply⟩ →
    (w.after moves).record e id = some k → k.suspendCount = 0 →
    (w.after (moves ++ [.step t])).stackOf t = some ⟨.resumed e id :: rest, .change none⟩ ∧
    ∀ target, (w.after (moves ++ [.step t])).record e target = (w.after moves).record e target
  /-- … and answers zero. -/
  answers : ∀ {t : Nat} {rest : List Task},
    (w.after moves).stackOf t = some ⟨.resumed e id :: rest, .change none⟩ →
      (w.after (moves ++ [.step t])).stackOf t = some ⟨rest, .count 0⟩
  /-- What was counted is logged, or somebody is about to do so … -/
  logs : w.due e moves = w.logged e moves + (w.after moves).load (Stack.owes e)
  /-- … and told to agents after that. -/
  tells : w.logged e moves = w.told e moves + (w.after moves).load fun x =>
    (x.tasks.map (Task.tells e)).sum
  /-- When all calls have returned, every suspension and every resumption that took effect was
  logged and told once … -/
  returned : (∀ t x, (w.after moves).stackOf t = some x → x.tasks.all Task.isMute = true) →
    w.logged e moves = w.due e moves ∧ w.told e moves = w.due e moves
  /-- … and an agent that stayed registered for such things was called once for each of them. -/
  hears : ∀ {before during : List Move} {agent : Nat}, moves = before ++ during →
    (w.after before).IsSilent → (w.after moves).IsSilent → (∀ past, past <+: during →
      (w.after (before ++ past)).Informs e agent Capabilities.threadEvents) →
    ((w.after before).heard e agent Notice.isOfThread during : Multiset Notice) =
      (w.after before).due e during
  /-- What comes out of the program is what listeners were called with. -/
  shows : (w.agentCalls moves).filterMap AgentCall.note? =
    w.takenNotices moves ++ (w.after moves).output.inOrder.notices
  journal : ∀ {t : Nat} {s : Stack} {n : Notice} {x : Runtime}, (w.after moves).stackOf t = some s →
    s.owes e = {n} → (w.after moves).engines[e]? = some x →
      ∃ event y, n.event? = some event ∧ (w.after (moves ++ [.step t])).engines[e]? = some y ∧
        y.journal = (x.journal.log event).1
  /-- A thread leaves its park in a state in which neither a suspension nor a pause of another
  thread holds it … -/
  leaves : ∀ {t : Nat} {m : Move} {rest : List Task} {reply : Reply},
    (w.after moves).stackOf t = some ⟨.registry e (.parked id .any) :: rest, reply⟩ →
    (w.after (moves ++ [m])).stackOf t ≠ (w.after moves).stackOf t →
    ∃ x k, (w.after moves).engines[e]? = some x ∧ (w.after moves).record e id = some k ∧
    k.suspendCount = 0 ∧ ¬x.registry.Pauses id
  /-- … and does so when it looks in such a state, whatever ended first. -/
  runs : ∀ {t : Nat} {rest : List Task} {reply : Reply} {x : Runtime} {k : Mutator},
    (w.after moves).stackOf t = some ⟨.registry e (.parked id .any) :: rest, reply⟩ →
    (w.after moves).engines[e]? = some x → (w.after moves).record e id = some k →
    k.suspendCount = 0 → ¬x.registry.Pauses id →
    (w.after (moves ++ [.step t])).stackOf t = some ⟨rest, reply⟩ ∧
    ∃ k', (w.after (moves ++ [.step t])).record e id = some k' ∧ k'.status = .running ∧
    k'.pollRequested = false

/-- **Suspensions nest, and go together with pauses.**  In every run the count of a thread is that
of its suspensions without its resumptions; each of these is logged and told to agents once; and a
parked thread runs again when it looks while its count is zero and no other thread has stopped the
world, and not before. -/
theorem nestsSuspensions_after (s : EngineSpec) (label : String) (moves : List Move) (e : Nat)
    (id : ThreadId) : (start s label).NestsSuspensions e id moves := by
  have hl := crew_lawful_after s label moves
  have hd : ((start s label).after moves).crew.Detained := detained_after s label moves
  have hmove : ∀ m,
      (start s label).after (moves ++ [m]) = ((start s label).after moves).move m := by
    intro m
    rw [after_append]
    rfl
  have hlogs := (balanced_owes s label e).after moves
  have htells := (balanced_tells s label e).after moves
  refine ⟨?_, ?_, ?_, hlogs, htells, ?_, ?_, shows_after s label moves, ?_, ?_, ?_⟩
  · intro hfits k hk
    obtain ⟨x, hx, hmasked⟩ := Option.bind_eq_some_iff.mp hk
    obtain ⟨j, hj, rfl⟩ := Option.map_eq_some_iff.mp hmasked
    refine (reckons_after s label moves).counts (r := x.registry) ?_ ?_ hfits
    · rw [getElem?_registries_crew, hx]
      rfl
    · rw [Registry.countOf, hj]
      rfl
  · intro t rest reply k hs hk hcount
    rw [hmove]
    exact idles_of_resume hd hs hk hcount
  · intro t rest hs
    rw [hmove]
    exact answers_of_resumed hs
  · intro hquiet
    have hlogged : (start s label).logged e moves = (start s label).due e moves := by
      rw [due, logged, hlogs, load_owes_of_isMute hquiet, add_zero]
    refine ⟨hlogged, ?_⟩
    rw [← hlogged, told, logged, htells, load_tells_of_isMute hquiet, add_zero]
  · rintro before during agent rfl hbefore hafter hagent
    exact heard_of_isSilent s label before during hbefore hafter hagent
  · intro t y n x hs hn hx
    rw [hmove]
    exact logs_of_owes hs hn hx
  · intro t m rest reply hs hleft
    rw [hmove] at hleft
    exact free_of_leaves hl hs hleft
  · intro t rest reply x k hs hx hk hcount hfree
    rw [hmove]
    exact runs_of_free hd hs hx hk hcount hfree

end Nesting

end World

end ManagedHeap
