import ManagedHeap.Proofs.CollectionJobs

/-!
# Who has the jobs that are counted as pending

**Input.**  A world and one of its engines.

**Algorithm.**  A job that is scheduled is counted, accepted or not, and taken off the counter when
it has been run or dropped.  In between it is with a thread, which has a charge, or on the channel
of the finalizer thread.  A thread that takes a task off its stack moves its charge one step on;
what becomes of jobs is posted.

**Results.**  `World.posts_of_produces`: every task but an instruction does to the slate of an
engine one of the things that `Slate.Step` lists.
-/

namespace ManagedHeap

variable {t : Nat}

/-- What a thread has to do with jobs of an engine. -/
inductive Charge where
  /-- Jobs that were accepted and are still to be counted. -/
  | count (jobs : List (Job Finalizer))
  /-- Jobs that were counted and are still to be sent. -/
  | parcel (jobs : List (Job Finalizer))
  | serve
  | drain
  | close
  | job (j : Job Finalizer)
  /-- A finalizer that has begun. -/
  | body
  | discard (jobs : List (Job Finalizer)) (count : Nat)
  /-- So many jobs are still to be taken off the counter. -/
  | retire (count : Nat)

@[simp]
def Task.charge? (e : Nat) : Task → Option Charge
  | .enrol e' jobs _ => if e' = e then some (.count jobs) else none
  | .send e' jobs _ => if e' = e then some (.parcel jobs) else none
  | .serve e' => if e' = e then some .serve else none
  | .drain e' _ | .drainUnstarted e' => if e' = e then some .drain else none
  | .closeChannel e' => if e' = e then some .close else none
  | .runJob e' j => if e' = e then some (.job j) else none
  | .body e' .. | .bodyResumes e' .. => if e' = e then some .body else none
  | .discardJobs e' jobs n => if e' = e then some (.discard jobs n) else none
  | .retire e' n => if e' = e then some (.retire n) else none
  | _ => none

/-- What can become of jobs. -/
inductive Fate where
  | scheduled
  | begun
  | dropped
  /-- Sent and never received. -/
  | lost
  deriving DecidableEq

/-- What is noted about jobs of an engine. -/
structure Posting where
  fate : Fate
  jobs : List (Job Finalizer)
  deriving DecidableEq

/-- What an engine shows of its jobs. -/
structure Account where
  pending : Nat
  /-- The jobs on the channel. -/
  sent : List (Job Finalizer)

def Board.account (b : Board) : Account := ⟨b.pending, b.post.channel.flatMap World.jobsOf⟩

def Engine.account (x : Runtime) : Account :=
  ⟨x.finalization.pending, x.finalization.channel.flatMap World.jobsOf⟩

@[simp]
theorem Engine.account_board (x : Runtime) : (Engine.board x).account = Engine.account x := rfl

namespace Board

variable (b : Board) (n : Nat)

@[simp]
theorem account_enrol : (enrol n b).account = ⟨b.account.pending + n, b.account.sent⟩ := rfl

@[simp]
theorem account_retire : (retire n b).account = ⟨b.account.pending - n, b.account.sent⟩ := rfl

@[simp]
theorem account_close : (close b).account = ⟨b.account.pending, []⟩ := rfl

@[simp]
theorem account_send (jobs : List (Job Finalizer)) :
    (send (.run jobs) b).account = ⟨b.account.pending, b.account.sent ++ jobs⟩ := by
  simp [account, send, World.jobsOf]

end Board

/-- The jobs of an engine: its account, and the charges of the threads. -/
structure Slate where
  account : Option Account
  charges : Array (List Charge)

def Charge.isLoop : Charge → Bool
  | .serve | .drain => true
  | _ => false

/-- The jobs of a call that has found the engine accepting and has not counted them. -/
@[simp]
def Charge.arriving : Charge → Multiset (Job Finalizer)
  | .count jobs => ↑jobs
  | _ => 0

/-- The jobs that a thread has counted and that are neither run nor dropped. -/
@[simp]
def Charge.carried : Charge → Multiset (Job Finalizer)
  | .parcel jobs | .discard jobs _ => ↑jobs
  | .job j => {j}
  | _ => 0

@[simp]
def Charge.weight : Charge → Nat
  | .parcel jobs => jobs.length
  | .job _ | .body => 1
  | .discard _ n | .retire n => n
  | _ => 0

/-- Whether a thread can have a charge before others. -/
@[simp]
def Charge.Fits (rest : List Charge) : Charge → Prop
  | .job _ | .body => ∃ c ∈ rest, c.isLoop = true
  | .discard jobs n => jobs.length ≤ n
  | _ => True

/-- Whether a thread can have charges in this order. -/
@[simp]
def Charge.Orderly : List Charge → Prop
  | [] => True
  | c :: rest => c.Fits rest ∧ Orderly rest

theorem Charge.Orderly.jobs (h : Orderly cs) (hloop : ∃ c ∈ cs, c.isLoop = true)
    (jobs : List (Job Finalizer)) : Orderly (jobs.map Charge.job ++ cs) := by
  induction jobs with
  | nil => exact h
  | cons j jobs ih =>
    obtain ⟨c, hc, hloop⟩ := hloop
    exact ⟨⟨c, List.mem_append_right _ hc, hloop⟩, ih⟩

@[simp]
theorem Charge.sum_arriving_job (jobs : List (Job Finalizer)) :
    (jobs.map (Charge.arriving ∘ Charge.job)).sum = 0 := by
  simp [Function.comp_def]

@[simp]
theorem Charge.sum_carried_job (jobs : List (Job Finalizer)) :
    (jobs.map (Charge.carried ∘ Charge.job)).sum = ↑jobs := by
  induction jobs with
  | nil => rfl
  | cons j jobs ih => rw [List.map_cons, List.sum_cons, ih]; rfl

@[simp]
theorem Charge.sum_weight_job (jobs : List (Job Finalizer)) :
    (jobs.map (Charge.weight ∘ Charge.job)).sum = jobs.length := by
  simp [Function.comp_def]

def Posting.jobsOf (fate : Fate) (ps : List Posting) : Multiset (Job Finalizer) :=
  ↑((ps.filter (·.fate = fate)).flatMap Posting.jobs)

@[simp]
theorem Posting.jobsOf_append (fate : Fate) (ps ps' : List Posting) :
    jobsOf fate (ps ++ ps') = jobsOf fate ps + jobsOf fate ps' := by
  simp [jobsOf]

@[simp]
theorem Posting.jobsOf_nil (fate : Fate) : jobsOf fate [] = 0 := rfl

@[simp]
theorem Posting.jobsOf_singleton (fate fate' : Fate) (jobs : List (Job Finalizer)) :
    jobsOf fate [⟨fate', jobs⟩] = if fate' = fate then ↑jobs else 0 := by
  by_cases h : fate' = fate <;> simp [jobsOf, h]

/-- The jobs that are done with: run, dropped or lost. -/
def Posting.settled (ps : List Posting) : Multiset (Job Finalizer) :=
  jobsOf .begun ps + jobsOf .dropped ps + jobsOf .lost ps

@[simp]
theorem Posting.settled_append (ps ps' : List Posting) :
    settled (ps ++ ps') = settled ps + settled ps' := by
  unfold settled
  simp only [jobsOf_append]
  abel

def Account.sentOf (a : Option Account) : List (Job Finalizer) := a.elim [] Account.sent

def Account.pendingOf (a : Option Account) : Nat := a.elim 0 Account.pending

namespace Slate

def push (t : Nat) (cs : List Charge) (s : Slate) : Slate :=
  { s with charges := s.charges.modify t (cs ++ ·) }

@[simp]
theorem push_nil {s : Slate} : s.push t [] = s := by
  unfold push
  simp only [List.nil_append]
  rw [modify_eq_self fun _ _ => rfl]

/-- What a step does with the charge of its thread and with the account. -/
structure Shift (a : Option Account) (c : Option Charge) (ps : List Posting) (a' : Option Account)
    (cs : List Charge) : Prop where
  jobs : Posting.jobsOf .scheduled ps + ((c.toList.map Charge.arriving).sum +
      (c.toList.map Charge.carried).sum + ↑(Account.sentOf a)) = (cs.map Charge.arriving).sum +
      (cs.map Charge.carried).sum + ↑(Account.sentOf a') + Posting.settled ps
  counter : (c.toList.map Charge.weight).sum ≤ Account.pendingOf a → Account.pendingOf a' +
      ((c.toList.map Charge.weight).sum + (Account.sentOf a).length) = Account.pendingOf a +
      ((cs.map Charge.weight).sum + (Account.sentOf a').length + (Posting.jobsOf .lost ps).card)
  orderly : ∀ rest, Charge.Orderly (c.toList ++ rest) → Charge.Orderly (cs ++ rest)
  grounded : a' = none → a = none ∧ (c = none → cs = [])
  closing : .close ∈ cs → .close ∈ c ∨ (c = some .drain ∧ Account.sentOf a = [])
  /-- Jobs that are still to be counted were scheduled. -/
  arriving :
    (cs.map Charge.arriving).sum ≤ Posting.jobsOf .scheduled ps + (c.toList.map Charge.arriving).sum

namespace Shift

variable {a : Account} {o : Option Account} {j : Job Finalizer} {jobs rest : List (Job Finalizer)}
  {n : Nat}

theorem keeps : Shift o c [] o c.toList where
  jobs := by simp [Posting.settled]
  counter := by simp
  orderly _ h := h
  grounded := by cases c <;> simp
  closing := by simpa using .inl
  arriving := by simp

theorem accepts : Shift (some a) none [⟨.scheduled, jobs⟩] (some a) [.count jobs] := by
  constructor <;> simp [Posting.settled]

theorem refuses : Shift (some a) none [⟨.scheduled, jobs⟩] (some ⟨a.pending + jobs.length, a.sent⟩)
    [.discard jobs jobs.length] := by
  constructor <;> simp [Posting.settled, Account.sentOf, Account.pendingOf, add_assoc]

theorem counts : Shift (some a) (some (.count jobs)) []
    (some ⟨a.pending + jobs.length, a.sent⟩) [.parcel jobs] := by
  constructor <;> simp [Posting.settled, Account.sentOf, Account.pendingOf, add_assoc]

theorem sends : Shift (some a) (some (.parcel jobs)) [] (some ⟨a.pending, a.sent ++ jobs⟩) [] := by
  constructor <;>
    simp [Posting.settled, Account.sentOf, Account.pendingOf, add_comm, List.perm_append_comm]

theorem bounces : Shift o (some (.parcel jobs)) [] o [.discard jobs jobs.length] := by
  constructor <;> simp [Posting.settled]

theorem receives (hc : c.isLoop = true) :
    Shift (some ⟨n, jobs ++ rest⟩) (some c) [] (some ⟨n, rest⟩) (jobs.map Charge.job ++ [c]) := by
  obtain rfl | rfl : c = .serve ∨ c = .drain := by cases c <;> simp_all [Charge.isLoop]
  all_goals
    constructor
    case orderly =>
      intro rest horderly
      rw [List.append_assoc]
      exact horderly.jobs ⟨_, List.mem_cons_self, rfl⟩ jobs
    all_goals simp [Posting.settled, Account.sentOf, Account.pendingOf]

theorem drops : Shift (some ⟨n, jobs ++ rest⟩) (some .drain) [] (some ⟨n, rest⟩)
    [.discard jobs jobs.length, .drain] := by
  constructor <;> simp [Posting.settled, Account.sentOf, Account.pendingOf]

/-- The finalizer thread hears that it has to leave. -/
theorem hears : Shift o (some .serve) [] o [.drain] := by
  constructor <;> simp [Posting.settled]

theorem ends (h : Account.sentOf o = []) : Shift o (some .drain) [] o [.close] := by
  constructor <;> simp [Posting.settled, h]

theorem closes : Shift (some a) (some .close) [⟨.lost, a.sent⟩] (some ⟨a.pending, []⟩) [] := by
  constructor <;> simp [Posting.settled, Account.sentOf, Account.pendingOf]

theorem begins : Shift o (some (.job j)) [⟨.begun, [j]⟩] o [.body] := by
  constructor <;> simp [Posting.settled, add_comm, ← Multiset.cons_coe, ← Multiset.singleton_add]

theorem finishes : Shift o (some .body) [] o [.retire 1] := by
  constructor <;> simp [Posting.settled]

theorem discards :
    Shift o (some (.discard (j :: jobs) n)) [⟨.dropped, [j]⟩] o [.discard jobs n] := by
  constructor
  case orderly => exact fun _ h => ⟨Nat.le_of_succ_le h.1, h.2⟩
  case jobs =>
    simp [Posting.settled]
    rw [← Multiset.cons_coe, ← Multiset.singleton_add, add_comm]
  all_goals simp

theorem clears : Shift o (some (.discard [] n)) [] o [.retire n] := by
  constructor <;> simp [Posting.settled]

theorem retires : Shift (some a) (some (.retire n)) [] (some ⟨a.pending - n, a.sent⟩) [] := by
  constructor
  case counter =>
    simp [Account.sentOf, Account.pendingOf]
    omega
  all_goals simp [Posting.settled, Account.sentOf]

/-- A call to stop finds a thread that never started. -/
theorem claims : Shift (some a) none [] (some a) [.drain] := by
  constructor <;> simp [Posting.settled]

end Shift

end Slate

namespace World

variable {w : World} {e e' : Nat} {tasks : List Task} {x : Runtime}

/-- The jobs of an engine: its account, and the charges of the threads. -/
def slate (e : Nat) (w : World) : Slate where
  account := (w.engines[e]?).map Engine.account
  charges := w.threads.map fun x => x.tasks.filterMap (Task.charge? e)

theorem account_slate (hx : w.engines[e]? = some x) : (w.slate e).account = some x.account := by
  rw [slate, hx, Option.map_some]

section Postings

/-- What is noted about the jobs of an engine when a thread performs a task. -/
def postingsOf (w : World) (e : Nat) : Task → List Posting
  | .schedule e' (j :: jobs) _ =>
    match w.engines[e']? with
    | some _ => if e' = e then [⟨.scheduled, j :: jobs⟩] else []
    | none => []
  | .runJob e' j => if e' = e then [⟨.begun, [j]⟩] else []
  | .discardJobs e' (j :: _) _ => if e' = e then [⟨.dropped, [j]⟩] else []
  | .closeChannel e' =>
    match w.engines[e']? with
    | some x => if e' = e then [⟨.lost, x.finalization.channel.flatMap jobsOf⟩] else []
    | none => []
  | _ => []

/-- What is noted about the jobs of an engine in a move. -/
def postings (w : World) (e : Nat) : Move → List Posting
  | .step t => if (w.step t).isSome then (w.nextTask t).elim [] (w.postingsOf e) else []
  | _ => []

/-- What is noted about the jobs of an engine in moves, in order. -/
def posted (w : World) (e : Nat) : List Move → List Posting
  | [] => []
  | m :: rest => w.postings e m ++ (w.move m).posted e rest

theorem posted_append (w : World) (e : Nat) (moves more : List Move) :
    w.posted e (moves ++ more) = w.posted e moves ++ (w.after moves).posted e more := by
  induction moves generalizing w with
  | nil => rfl
  | cons m rest ih => rw [List.cons_append, posted, posted, ih, List.append_assoc]; rfl

end Postings

section Tasks

theorem Task.charge?_of_load {task : Task} (h : task.load ≠ some e) : task.charge? e = none := by
  cases task <;> simp_all [Task.load, Task.home]

theorem postingsOf_of_home (h : task.home ≠ some e) : w.postingsOf e task = [] := by
  have hne : ∀ {k}, some k ≠ some e → k ≠ e := fun hk he => hk (congrArg some he)
  cases task with
  | schedule k jobs =>
    cases jobs with
    | nil => rfl
    | cons j jobs =>
      simp only [postingsOf, if_neg (hne h)]
      split <;> rfl
  | closeChannel k =>
    simp only [postingsOf, if_neg (hne h)]
    split <;> rfl
  | discardJobs k jobs => cases jobs <;> first | rfl | exact if_neg (hne h)
  | runJob k => exact if_neg (hne h)
  | _ => rfl

theorem filterMap_charge?_runJob (jobs : List (Job Finalizer)) :
    (jobs.map (Task.runJob e')).filterMap (Task.charge? e) = if e' = e then jobs.map Charge.job
    else [] := by
  split
  · next he =>
      subst he
      simp [List.filterMap_map, Function.comp_def]
  · next he => simp [List.filterMap_map, Function.comp_def, he]

/-- What a task of a thread does to the slate of an engine: it leaves other tasks in its place and
may change what an engine shows. -/
def Posts (w : World) (e : Nat) (task : Task) (tasks : List Task) (c : Notch) : Prop :=
  Slate.Shift ((w.engines[e]?).map Engine.account) (task.charge? e) (w.postingsOf e task)
    ((w.engines[e]?).map fun x => (c.on e x.board).account) (tasks.filterMap (Task.charge? e))

variable {task : Task} {c : Notch}

theorem posts_of_shift (hc : ∀ g, c = some (e, g) → ∀ b, (g b).account = b.account)
    (h : Slate.Shift ((w.engines[e]?).map Engine.account) (task.charge? e) (w.postingsOf e task)
      ((w.engines[e]?).map Engine.account) (tasks.filterMap (Task.charge? e))) :
    w.Posts e task tasks c := by
  have haccount : (fun x : Runtime => (c.on e x.board).account) = Engine.account :=
    funext fun x => Notch.on_eq hc x.board
  unfold Posts
  rwa [haccount]

theorem posts_keep (htasks : tasks.filterMap (Task.charge? e) = (task.charge? e).toList)
    (hp : w.postingsOf e task = []) (hc : ∀ g, c = some (e, g) → ∀ b, (g b).account = b.account) :
    w.Posts e task tasks c :=
  posts_of_shift hc (by rw [htasks, hp]; exact .keeps)

theorem posts_of_engine (hx : w.engines[e]? = some x)
    (h : Slate.Shift (some x.account) (task.charge? e) (w.postingsOf e task)
      (some (g x.board).account) (tasks.filterMap (Task.charge? e))) :
    w.Posts e task tasks (some (e, g)) := by
  unfold Posts
  rw [hx]
  simpa using h

theorem posts_apart {k : Core} {r : Reply} {a : Option Reply} (hf : task.Fits k)
    (h : task.Produces w.engines t r tasks a c) (hhome : task.home ≠ some e) :
    w.Posts e task tasks c := by
  obtain ⟨htasks, hc⟩ := h.apart hf hhome
  refine posts_keep ?_ (postingsOf_of_home hhome) fun g hg b => ?_
  · rw [Task.charge?_of_load fun hload => hhome (Task.home_of_load hload)]
    exact List.filterMap_eq_nil_iff.mpr fun x hx => Task.charge?_of_load (htasks x hx)
  · rw [Board.account, Board.account, (hc g hg b).1, (hc g hg b).2]

theorem account_take (h : x.finalization.receive? = some (m, f)) :
    ∃ rest, x.account = ⟨x.finalization.pending, jobsOf m ++ rest⟩ ∧
      (Board.take x.board).account = ⟨x.finalization.pending, rest⟩ := by
  unfold Finalization.receive? at h
  split at h <;> cases h
  next messages hchannel =>
    refine ⟨messages.flatMap jobsOf, ?_, ?_⟩ <;>
      simp [Engine.account, Board.account, Board.take, Engine.board, Engine.post, hchannel]

theorem sentOf_of_empty (h : ∀ x, w.engines[e]? = some x → x.finalization.channel = []) :
    Account.sentOf ((w.engines[e]?).map Engine.account) = [] := by
  cases hx : w.engines[e]? with
  | none => rfl
  | some x => simp [Account.sentOf, Engine.account, h x hx]

/-- **Every task but an instruction does one of these things to a slate.** -/
theorem posts_of_produces (hthere : task.charge? e ≠ none → ∃ x, w.engines[e]? = some x)
    (hf : task.Fits k) (h : task.Produces w.engines t r tasks a c) : w.Posts e task tasks c := by
  by_cases hhome : task.home ≠ some e
  · exact posts_apart hf h hhome
  replace hhome := not_not.mp hhome
  cases h with
  | aside htask | proceeds htask | refusesObject htask | stores htask =>
    cases task <;> contradiction
  | strays htask he =>
    cases task with
    | schedule e' jobs rp =>
      cases htask
      cases jobs <;> exact posts_keep rfl (by simp [postingsOf, he]) nofun
    | closeChannel e' =>
      cases htask
      cases hhome
      obtain ⟨x, hx⟩ := hthere (by simp)
      cases he.symm.trans hx
    | pause | finishCycle | claimReceiver => exact posts_keep rfl rfl nofun
    | _ => contradiction
  | passes htask | polls htask => rcases htask with rfl | ⟨_, rfl⟩ <;> contradiction
  | asksToLeave =>
    refine posts_keep rfl rfl fun g hg b => ?_
    cases hg
    simp only [Board.account, Board.ask]
    split <;> simp [jobsOf]
  | goesOn | enqueues | collectsInside | comesBack =>
    cases hhome
    exact posts_keep (by simp [List.filterMap_cons]) rfl nofun
  | accepts hx hjobs =>
    obtain ⟨j, jobs, rfl⟩ := List.exists_cons_of_ne_nil hjobs
    cases hhome
    exact posts_of_shift nofun (by simpa [postingsOf, hx] using Slate.Shift.accepts)
  | refuses hx hjobs =>
    obtain ⟨j, jobs, rfl⟩ := List.exists_cons_of_ne_nil hjobs
    cases hhome
    exact posts_of_engine hx
      (by simpa [postingsOf, hx, List.filterMap_cons] using @Slate.Shift.refuses _ (j :: jobs))
  | enrols =>
    cases hhome
    obtain ⟨x, hx⟩ := hthere (by simp)
    exact posts_of_engine hx (by simpa [postingsOf] using Slate.Shift.counts)
  | sends hx =>
    cases hhome
    exact posts_of_engine hx (by simpa [postingsOf, List.filterMap_cons] using Slate.Shift.sends)
  | bounces =>
    cases hhome
    exact posts_of_shift nofun (by simpa [postingsOf,
        List.filterMap_cons] using Slate.Shift.bounces)
  | serves hx hjobs | drains hx hjobs =>
    cases hhome
    obtain ⟨rest, hbefore, hafter⟩ := account_take hjobs
    refine posts_of_engine hx ?_
    rw [hbefore, hafter, List.filterMap_append, filterMap_charge?_runJob, if_pos rfl]
    simpa [postingsOf, jobsOf] using Slate.Shift.receives rfl
  | hears hx hcall | skips hx hcall | skipsUnstarted hx hcall =>
    cases hhome
    obtain ⟨rest, hbefore, hafter⟩ := account_take hcall
    refine posts_of_engine hx ?_
    rw [hbefore, hafter]
    first
    | simpa [postingsOf, jobsOf] using Slate.Shift.hears
    | simpa [postingsOf, jobsOf] using Slate.Shift.keeps (c := some .drain)
  | drainsAway hx hjobs | drainsUnstarted hx hjobs =>
    cases hhome
    obtain ⟨rest, hbefore, hafter⟩ := account_take hjobs
    refine posts_of_engine hx ?_
    rw [hbefore, hafter]
    simpa [postingsOf, jobsOf] using Slate.Shift.drops
  | departs hempty | departsUnstarted hempty =>
    cases hhome
    refine posts_of_shift nofun ?_
    simpa [postingsOf, List.filterMap_cons] using Slate.Shift.ends (sentOf_of_empty hempty)
  | @closes _ x _ hx =>
    cases hhome
    exact posts_of_engine hx (by simpa [postingsOf, Engine.account, hx,
        List.filterMap_cons] using Slate.Shift.closes (a := x.account))
  | runs =>
    cases hhome
    exact posts_of_shift nofun (by simpa [postingsOf] using Slate.Shift.begins)
  | ends =>
    cases hhome
    exact posts_of_shift nofun (by simpa [afterBody, postingsOf,
        List.filterMap_cons] using Slate.Shift.finishes)
  | discards =>
    cases hhome
    exact posts_of_shift nofun (by simpa [postingsOf,
        List.filterMap_cons] using Slate.Shift.discards)
  | discarded =>
    cases hhome
    exact posts_of_shift (fun g hg _ => by cases hg; rfl)
      (by simpa [postingsOf, List.filterMap_cons] using Slate.Shift.clears)
  | retires =>
    cases hhome
    obtain ⟨x, hx⟩ := hthere (by simp)
    exact posts_of_engine hx (by simpa [postingsOf] using Slate.Shift.retires)
  | claimsReceiver hx =>
    cases hhome
    exact posts_of_shift (fun g hg _ => by cases hg; rfl)
      (by simpa [postingsOf, hx] using Slate.Shift.claims)
  | _ => first | contradiction | exact posts_keep rfl rfl fun g hg _ => by cases hg <;> rfl

end Tasks

end World

end ManagedHeap
