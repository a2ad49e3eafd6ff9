import ManagedHeap.Proofs.Beginnings

/-!
# What becomes of collections and their jobs

**Input.**  A world and one of its engines.

**Algorithm.**  The docket of an engine lists what becomes of its collections: the reports and jobs
that threads carry, the finalizer thread with its channel, and the jobs that are about to be run or
dropped.  A thread that takes a task off its stack moves an entry of the docket one step on; what
everybody can see of that is a happening.

**Results.**  `World.course_moves`: along a run every docket takes only such steps, with the
happenings of the run.
-/

namespace ManagedHeap

/-- What a thread carries for an engine. -/
inductive Errand where
  /-- The jobs of a pause and the bytes that it took away, on the way to the finalizer thread. -/
  | parcel (jobs : List (Job Finalizer)) (bytes : Nat)
  /-- The end of a collection. -/
  | closing (bytes : Nat)
  | serve
  /-- The receiving end of the channel after a call to stop. -/
  | drain (runPending : Bool)
  | close
  | job (j : Job Finalizer)
  | discard (jobs : List (Job Finalizer)) (count : Nat)

def Task.errand? (e : Nat) : Task → Option Errand
  | .enqueuePending e' _ jobs r | .schedule e' jobs r | .enrol e' jobs r | .send e' jobs r =>
    if e' = e then some (.parcel jobs r.reclaimedBytes) else none
  | .finishCycle e' r => if e' = e then some (.closing r.reclaimedBytes) else none
  | .serve e' => if e' = e then some .serve else none
  | .drain e' b => if e' = e then some (.drain b) else none
  | .drainUnstarted e' => if e' = e then some (.drain false) else none
  | .closeChannel e' => if e' = e then some .close else none
  | .runJob e' j => if e' = e then some (.job j) else none
  | .discardJobs e' jobs count => if e' = e then some (.discard jobs count) else none
  | _ => none

deriving instance DecidableEq for Job

/-- Something that everybody can see of an engine. -/
inductive Happening where
  /-- A pause took so many bytes away. -/
  | paused (bytes : Nat)
  /-- A collection ended whose pause took so many bytes away. -/
  | finished (bytes : Nat)
  | begun (j : Job Finalizer)
  | discarded (j : Job Finalizer)
  /-- So many dropped jobs were counted. -/
  | counted (n : Nat)
  /-- A job went away with the channel. -/
  | lost (j : Job Finalizer)
  deriving DecidableEq

/-- The finalizer thread of an engine and what threads carry for it. -/
structure Docket where
  post : Option Post
  errands : Multiset Errand

namespace Docket

def add (d : Docket) (errands : List Errand) : Docket := { d with errands := ↑errands + d.errands }

@[simp]
theorem add_nil (d : Docket) : d.add [] = d := by
  simp [add]

@[simp]
theorem add_cons (d : Docket) (x : Errand) (rest : List Errand) :
    d.add (x :: rest) = ⟨d.post, x ::ₘ (d.add rest).errands⟩ := by
  simp [add, ← Multiset.cons_coe]

theorem add_append (d : Docket) (l rest : List Errand) :
    d.add (l ++ rest) = ⟨d.post, ↑l + (d.add rest).errands⟩ := by
  simp [add, ← Multiset.coe_add, add_assoc]

/-- A docket after somebody asked its finalizer thread to leave. -/
def stop (d : Docket) : Docket :=
  match d.post with
  | none => d
  | some p =>
    if p.receiver = .unclaimed then ⟨some { p with receiver := .claimed },
      .drain false ::ₘ d.errands⟩
    else if p.joinable = false then d
    else if p.receiver = .closed then ⟨some { p with joinable := false }, d.errands⟩
    else ⟨some { p with joinable := false, channel := p.channel ++ [.shutdown p.runsOnExit] },
      d.errands⟩

/-- What one task does to a docket. -/
inductive Step : Docket → List Happening → Docket → Prop
  | idle : Step d [] d
  | opens (h : p.receiver = .unclaimed) (hj : p.joinable = false)
      (hc : p.channel = []) : Step ⟨none, r⟩ [] ⟨some p, r⟩
  | hires (h : p.receiver = .unclaimed) : Step ⟨some p, r⟩ [] ⟨some p.hired, .serve ::ₘ r⟩
  | pauses : Step ⟨some p, r⟩ [.paused n] ⟨some p, .parcel jobs n ::ₘ r⟩
  /-- There is nothing to finalize. -/
  | empties : Step ⟨p, .parcel [] n ::ₘ r⟩ [] ⟨p, .closing n ::ₘ r⟩
  | refuses : Step ⟨p, .parcel jobs n ::ₘ r⟩ [] ⟨p, .discard jobs jobs.length ::ₘ .closing n ::ₘ r⟩
  | sends (h : p.receiver ≠ .closed) : Step ⟨some p, .parcel jobs n ::ₘ r⟩ []
      ⟨some { p with channel := p.channel ++ [.run jobs] }, .closing n ::ₘ r⟩
  | finishes : Step ⟨p, .closing n ::ₘ r⟩ [.finished n] ⟨p, r⟩
  | begins : Step ⟨p, .job j ::ₘ r⟩ [.begun j] ⟨p, r⟩
  | discards : Step ⟨p, .discard (j :: jobs) n ::ₘ r⟩ [.discarded j] ⟨p, .discard jobs n ::ₘ r⟩
  | counts : Step ⟨p, .discard [] n ::ₘ r⟩ [.counted n] ⟨p, r⟩
  /-- The finalizer thread begins with a batch. -/
  | receives (h : p.channel = .run jobs :: rest) : Step ⟨some p, .serve ::ₘ r⟩ []
      ⟨some { p with channel := rest }, .serve ::ₘ (↑(jobs.map Errand.job) + r)⟩
  /-- The finalizer thread hears that it has to leave. -/
  | leaves (h : p.channel = .shutdown b :: rest) :
      Step ⟨some p, .serve ::ₘ r⟩ [] ⟨some { p with channel := rest }, .drain b ::ₘ r⟩
  | runs (h : p.channel = .run jobs :: rest) :
      Step ⟨some p, .drain true ::ₘ r⟩ []
        ⟨some { p with channel := rest }, .drain true ::ₘ (↑(jobs.map Errand.job) + r)⟩
  | drops (h : p.channel = .run jobs :: rest) :
      Step ⟨some p, .drain false ::ₘ r⟩ []
        ⟨some { p with channel := rest }, .drain false ::ₘ .discard jobs jobs.length ::ₘ r⟩
  | skips (h : p.channel = .shutdown c :: rest) :
      Step ⟨some p, .drain b ::ₘ r⟩ [] ⟨some { p with channel := rest }, .drain b ::ₘ r⟩
  | ends (h : ∀ q, p = some q → q.channel = []) : Step ⟨p, .drain b ::ₘ r⟩ [] ⟨p, .close ::ₘ r⟩
  /-- The receiving end goes away, and with it what was sent too late. -/
  | closes :
      Step ⟨p, .close ::ₘ r⟩ (((p.elim [] Post.channel).flatMap World.jobsOf).map .lost)
        ⟨p.map fun q => { q with receiver := .closed, channel := [] }, r⟩
  | stops : Step d [] d.stop

/-- What many tasks do to a docket, one after the other. -/
inductive Course : Docket → List Happening → Docket → Prop
  | refl : Course d [] d
  | tail (before : Course d past d₁) (step : Step d₁ hs d₂) : Course d (past ++ hs) d₂

variable {d d₁ d₂ : Docket} {hs hs' : List Happening}

theorem Step.course (h : Step d hs d₁) : Course d hs d₁ := .tail .refl h

theorem Course.trans (h : Course d hs d₁) (h' : Course d₁ hs' d₂) : Course d (hs ++ hs') d₂ := by
  induction h' with
  | refl => rwa [List.append_nil]
  | tail _ step ih =>
    rw [← List.append_assoc]
    exact .tail ih step

end Docket

variable {task : Task} {r : Reply} {rest tasks : List Task} {a : Option Reply} {k : Nat}

def World.docket (e : Nat) (w : World) : Docket where
  post := (w.engines[e]?).map Engine.post
  errands := total w.threads fun x => ↑(x.tasks.filterMap (Task.errand? e))

theorem filterMap_errand?_runJob (e e' : Nat) (jobs : List (Job Finalizer)) :
    (jobs.map (Task.runJob e')).filterMap (Task.errand? e) = if e' = e then jobs.map Errand.job
    else [] := by
  induction jobs with
  | nil => simp
  | cons j jobs ih => split <;> simp_all [Task.errand?]

section Views

/-- The docket of an engine, read off stacks and what engines show. -/
def Floor.docket (e : Nat) (f : Floor) : Docket where
  post := (f.boards[e]?).map Board.post
  errands := total f.threads fun s => ↑(s.tasks.filterMap (Task.errand? e))

namespace Floor

variable {f f' : Floor} {t e : Nat}

theorem exists_docket (hs : f.threads[t]? = some ⟨task :: rest, r⟩) :
    ∃ d : Docket, d.post = (f.boards[e]?).map Board.post ∧
    f.docket e = d.add (task.errand? e).toList ∧ ∀ tasks r',
    (f.put t ⟨tasks ++ rest, r'⟩).docket e = d.add (tasks.filterMap (Task.errand? e)) := by
  obtain ⟨others, hbefore, -⟩ := exists_total_modify hs (fun s => s)
    fun s => (↑(s.tasks.filterMap (Task.errand? e)) : Multiset Errand)
  refine ⟨⟨(f.boards[e]?).map Board.post, ↑(rest.filterMap (Task.errand? e)) + others⟩, rfl, ?_,
    fun tasks r' => ?_⟩
  · unfold docket Docket.add
    rw [hbefore, ← add_assoc, Multiset.coe_add]
    cases hr : task.errand? e <;> simp [hr]
  · obtain ⟨others', hbefore', hafter⟩ := exists_total_modify hs (fun _ => ⟨tasks ++ rest, r'⟩)
      fun s => (↑(s.tasks.filterMap (Task.errand? e)) : Multiset Errand)
    obtain rfl : others' = others := add_left_cancel (hbefore'.symm.trans hbefore)
    unfold docket put Docket.add
    dsimp only
    rw [hafter, List.filterMap_append, ← Multiset.coe_add, add_assoc]

theorem docket_put (s' : Stack) (hs : f.threads[t]? = some s)
    (h : s'.tasks.filterMap (Task.errand? e) = s.tasks.filterMap (Task.errand? e)) :
    (f.put t s').docket e = f.docket e := by
  obtain ⟨others, hbefore, hafter⟩ := exists_total_modify hs (fun _ => s')
    fun s => (↑(s.tasks.filterMap (Task.errand? e)) : Multiset Errand)
  unfold docket put
  dsimp only
  rw [hbefore, hafter, h]

theorem docket_alter (c : Notch) :
    (f.alter c).docket e = { f.docket e with post := ((f.alter c).boards[e]?).map Board.post } := by
  unfold docket
  rw [threads_alter]

theorem docket_modifyBoard (h : ∀ b, (g b).post = b.post) :
    (f.modifyBoard k g).docket e = f.docket e := by
  unfold docket modifyBoard
  congr 1
  rw [Array.getElem?_modify]
  split
  · cases f.boards[e]? <;> simp [h]
  · rfl

theorem Opens.docket (h : f.Opens R f') (e : Nat) : (f.docket e).Step [] (f'.docket e) := by
  have hsame : f'.docket e = f.docket e → (f.docket e).Step [] (f'.docket e) :=
    fun hsame => hsame ▸ .idle
  cases h with
  | registers | resigns | resets => exact hsame (docket_modifyBoard fun _ => rfl)
  | drops => exact hsame rfl
  | makes runs =>
    by_cases he : e = f.boards.size
    · have hbefore : f.docket e = ⟨none, (f.docket e).errands⟩ := by simp [Floor.docket, he]
      have hafter : Floor.docket e { f with boards := f.boards.push (.fresh runs) } =
          ⟨some (Board.fresh runs).post, (f.docket e).errands⟩ := by simp [Floor.docket, he]
      rw [hbefore, hafter]
      exact .opens rfl rfl rfl
    · exact hsame (by simp [Floor.docket, Array.getElem?_push, he])
  | @hires e' b hb hunclaimed =>
    by_cases he : e' = e
    · subst he
      have hbefore : f.docket e' = ⟨some b.post, (f.docket e').errands⟩ := by
        simp [Floor.docket, hb]
      have hafter : Floor.docket e'
          { f.modifyBoard e' .hire with threads := f.threads.push ⟨[.serve e'], .unit⟩ } =
          ⟨some b.post.hired, .serve ::ₘ (f.docket e').errands⟩ := by
        simp [Floor.docket, Floor.modifyBoard, Array.getElem?_modify, hb, total_push, Task.errand?,
          Board.hire, add_comm]
      rw [hbefore, hafter]
      exact .hires hunclaimed
    · exact hsame (by simp [Floor.docket, Floor.modifyBoard, Array.getElem?_modify, total_push,
          Task.errand?, he])

theorem Grows.docket (h : f.Grows R f') (e : Nat) : (f.docket e).Course [] (f'.docket e) := by
  induction h with
  | refl => exact .refl
  | tail _ opens ih => exact .tail ih (opens.docket e)

end Floor

end Views

section Homes

/-- The engine to whose finalizers a task has to do something. -/
def Task.home : Task → Option Nat
  | .pause e .. | .enqueuePending e .. | .schedule e .. | .enrol e .. | .send e ..
  | .finishCycle e _ => some e
  | .serve e | .drain e _ | .drainUnstarted e | .closeChannel e | .claimReceiver e => some e
  | .runJob e _ | .body e .. | .bodyResumes e .. | .discardJobs e .. | .retire e _ => some e
  | _ => none

theorem Task.Produces.abroad (h : task.Produces engines t r tasks a c) (hhome : task.home = some k)
    (hne : k ≠ e) : (∀ x ∈ tasks, x.home ≠ some e) ∧ ∀ g, c ≠ some (e, g) := by
  cases h with
  | aside htask | proceeds htask | refusesObject htask | stores htask =>
    cases task <;> contradiction
  | passes htask | polls htask => rcases htask with rfl | ⟨_, rfl⟩ <;> contradiction
  | _ => simp_all [Task.home, World.afterBody, or_imp]

/-- The engine for which a task carries something. -/
def Task.load : Task → Option Nat
  | .pause .. | .claimReceiver _ => none
  | task => task.home

theorem Task.home_of_load (h : task.load = some e) : task.home = some e := by
  cases task <;> first | exact h | cases h

/-- A task that has nothing to do with an engine leaves nothing to be carried for it, and lets its
finalizers alone. -/
theorem Task.Produces.apart {engines : Array Runtime} {t e : Nat} {c : Notch} {k : Core}
    (h : task.Produces engines t r tasks a c) (hf : task.Fits k) (hhome : task.home ≠ some e) :
    (∀ x ∈ tasks, x.load ≠ some e) ∧ ∀ g, c = some (e, g) →
    ∀ b, (g b).post = b.post ∧ (g b).pending = b.pending := by
  cases hk : task.home with
  | some k =>
    obtain ⟨htasks, hc⟩ := h.abroad hk fun hke => hhome (hk.trans (congrArg some hke))
    exact ⟨fun x hx hload => htasks x hx (Task.home_of_load hload), fun g hg => (hc g hg).elim⟩
  | none =>
    have hlight : tasks.all (·.load.isNone) = true ∧ ∀ g, c = some (e, g) →
        ∀ b, (g b).post = b.post ∧ (g b).pending = b.pending := by
      cases h with
      | aside _ htasks | proceeds _ htasks =>
        exact ⟨World.all_imp (fun {task} h => by cases task <;> first | rfl | cases h) htasks,
          nofun⟩
      | @enters hold _ _ _ body | @nests hold _ body =>
        cases body with
        | lockCollector | waitOnQueue | awaitDrain => exact ⟨rfl, nofun⟩
        | _ => exact hf.elim
      | @operates _ _ _ _ _ _ p => cases p <;> exact ⟨rfl, nofun⟩
      | closes | retires | asksToLeave => cases hk
      | _ => first | exact ⟨rfl, fun g hg b => by cases hg <;> exact ⟨rfl, rfl⟩⟩ | cases hk
    exact ⟨fun x hx => by simp [Option.isNone_iff_eq_none.mp (List.all_eq_true.mp hlight.1 x hx)],
      hlight.2⟩

theorem Opening.load_eq_none (h : Opening engines agents tasks) (htask : task ∈ tasks) :
    task.load = none := by
  have hfirst := List.all_eq_true.mp h.all_isFirst task htask
  cases task <;> first | rfl | cases hfirst

theorem Task.errand?_of_load (h : task.load ≠ some e) : task.errand? e = none := by
  cases task <;> simp_all [Task.load, Task.home, Task.errand?]

end Homes

namespace World

variable {w w₁ w' : World} {t e e' : Nat} {tasks : List Task}

theorem docket_floor : w.floor.docket e = w.docket e := by
  unfold Floor.docket docket floor
  congr 1
  · rw [Array.getElem?_map, Option.map_map]
    rfl
  · simp only [total, Array.toList_map, List.map_map]
    rfl

section Happenings

/-- What is seen of an engine when a thread performs a task. -/
def happeningsOf (w : World) (t e : Nat) : Task → List Happening
  | .pause e' _ reason =>
    match w.replyOf t, w.engines[e']? with
    | .count _, some x =>
      if e' = e then [.paused (x.heap.pause x.settings reason).reclaimedBytes] else []
    | _, _ => []
  | .finishCycle e' r => if e' = e then [.finished r.reclaimedBytes] else []
  | .runJob e' j => if e' = e then [.begun j] else []
  | .discardJobs e' (j :: _) _ => if e' = e then [.discarded j] else []
  | .discardJobs e' [] n => if e' = e then [.counted n] else []
  | .closeChannel e' =>
    if e' = e then (((w.engines[e]?).elim [] (·.finalization.channel)).flatMap jobsOf).map .lost
      else []
  | _ => []

def happenings (w : World) (e : Nat) : Move → List Happening
  | .step t => if (w.step t).isSome then (w.nextTask t).elim [] (w.happeningsOf t e) else []
  | _ => []

/-- What is seen of an engine in moves, in order. -/
def course (w : World) (e : Nat) : List Move → List Happening
  | [] => []
  | m :: rest => w.happenings e m ++ (w.move m).course e rest

theorem course_append (w : World) (e : Nat) (moves more : List Move) :
    w.course e (moves ++ more) = w.course e moves ++ (w.after moves).course e more := by
  induction moves generalizing w with
  | nil => rfl
  | cons m rest ih => rw [List.cons_append, course, course, ih, List.append_assoc]; rfl

end Happenings

section Steps

/-- A step of a docket without the errand of a task that its thread has just taken off its stack: it
leaves other tasks there and may change what an engine shows. -/
def Turns (w : World) (t e : Nat) (task : Task) (tasks : List Task) (c : Notch) : Prop :=
  ∀ d : Docket, d.post = (w.engines[e]?).map Engine.post →
    (d.add (task.errand? e).toList).Step (w.happeningsOf t e task)
      { d.add (tasks.filterMap (Task.errand? e)) with
        post := (w.engines[e]?).map fun x => (c.on e x.board).post }

variable {task : Task} {c : Notch}

theorem turns_of_step (hc : ∀ g, c = some (e, g) → ∀ b, (g b).post = b.post)
    (h : ∀ p r, p = (w.engines[e]?).map Engine.post →
      (Docket.add ⟨p, r⟩ (task.errand? e).toList).Step (w.happeningsOf t e task)
      (Docket.add ⟨p, r⟩ (tasks.filterMap (Task.errand? e)))) : w.Turns t e task tasks c := by
  rintro ⟨p, r⟩ hd
  have hpost : (w.engines[e]?).map (fun x => (c.on e x.board).post) = p := by
    rw [show p = _ from hd]
    congr 1
    exact funext fun x => Notch.on_eq hc x.board
  rw [hpost]
  exact h p r hd

theorem turns_same (htasks : tasks.filterMap (Task.errand? e) = (task.errand? e).toList)
    (hh : w.happeningsOf t e task = []) (hc : ∀ g, c = some (e, g) → ∀ b, (g b).post = b.post) :
    w.Turns t e task tasks c :=
  turns_of_step hc fun p r _ => by rw [htasks, hh]; exact .idle

theorem happeningsOf_of_home (h : task.home ≠ some e) : w.happeningsOf t e task = [] := by
  cases task with
  | pause k =>
    simp only [happeningsOf]
    split
    · exact if_neg fun hk => h (congrArg some hk)
    · rfl
  | discardJobs k jobs => cases jobs <;> exact if_neg fun hk => h (congrArg some hk)
  | finishCycle k | runJob k | closeChannel k => exact if_neg fun hk => h (congrArg some hk)
  | _ => rfl

theorem turns_apart {k : Core} (hf : task.Fits k) (h : task.Produces w.engines t r tasks a c)
    (hhome : task.home ≠ some e) : w.Turns t e task tasks c := by
  obtain ⟨htasks, hc⟩ := h.apart hf hhome
  refine turns_same ?_ (happeningsOf_of_home hhome) fun g hg b => (hc g hg b).1
  rw [Task.errand?_of_load fun hload => hhome (Task.home_of_load hload)]
  exact List.filterMap_eq_nil_iff.mpr fun x hx => Task.errand?_of_load (htasks x hx)

theorem turns_receive (hx : w.engines[e]? = some x) (h : x.finalization.receive? = some (m, f))
    (hh : w.happeningsOf t e task = []) (hstep : ∀ messages r, x.post.channel = m :: messages →
      (Docket.add ⟨some x.post, r⟩ (task.errand? e).toList).Step [] (Docket.add
      ⟨some { x.post with channel := messages }, r⟩ (tasks.filterMap (Task.errand? e)))) :
    w.Turns t e task tasks (some (e, .take)) := by
  intro d hd
  unfold Finalization.receive? at h
  split at h <;> cases h
  next messages hchannel =>
    obtain ⟨p, r⟩ := d
    rw [hx] at hd
    cases hd
    have htaken := hstep messages r hchannel
    rw [hh, hx]
    simpa [Docket.add, Board.take, Engine.board, Engine.post, hchannel] using htaken

theorem turns_claimReceiver (h : (Task.claimReceiver e).Produces w.engines t r tasks a c)
    (d : Docket) (hd : d.post = (w.engines[e]?).map Engine.post) :
    ({ d.add (tasks.filterMap (Task.errand? e)) with post := (w.engines[e]?).map fun x =>
      (c.on e x.board).post } : Docket) = d.stop := by
  obtain ⟨p, errands⟩ := d
  cases h with
  | strays htask he =>
    cases htask
    rw [he] at hd ⊢
    cases hd
    simp [Docket.stop]
  | claimsReceiver hx hreceiver =>
    rw [hx] at hd ⊢
    cases hd
    simp [Docket.stop, Docket.add, Task.errand?, Engine.board, Engine.post, Board.claim, hreceiver]
  | findsStopped hx hreceiver hjoinable =>
    rw [hx] at hd ⊢
    cases hd
    simp [Docket.stop, Docket.add, Task.errand?, Engine.board, Engine.post, hreceiver, hjoinable]
  | @asksToLeave _ x _ hx hreceiver hjoinable =>
    rw [hx] at hd ⊢
    cases hd
    by_cases hclosed : x.finalization.receiver = .closed <;> simp [Docket.stop, Docket.add,
      Task.errand?, Engine.board, Engine.post, Board.ask, hreceiver, hjoinable, hclosed]
  | _ => first | contradiction | simp_all

/-- **Every task but an instruction takes dockets one step on.** -/
theorem turns_of_produces {k : Core} (hsize : k.cells.size = w.engines.size)
    (hf : task.Fits k) (hr : w.replyOf t = r) (h : task.Produces w.engines t r tasks a c) :
    w.Turns t e task tasks c := by
  by_cases hhome : task.home ≠ some e
  · exact turns_apart hf h hhome
  replace hhome := not_not.mp hhome
  have hstops : ∀ {tasks c}, (Task.claimReceiver e).Produces w.engines t r tasks a c →
      w.Turns t e (.claimReceiver e) tasks c := by
    intro tasks c h d hd
    rw [turns_claimReceiver h d hd]
    have hadd : d.add (Task.errand? e (.claimReceiver e)).toList = d := Docket.add_nil d
    rw [hadd]
    exact .stops
  cases h with
  | aside htask | proceeds htask | refusesObject htask | stores htask =>
    cases task <;> contradiction
  | strays htask he =>
    cases task with
    | pause =>
      cases htask
      exact turns_same rfl (by simp [happeningsOf, he]) nofun
    | schedule =>
      cases htask
      rw [Array.getElem?_eq_none_iff, ← hsize] at he
      exact (Nat.not_le.mpr hf he).elim
    | finishCycle =>
      cases htask
      cases hhome
      rintro ⟨p, errands⟩ hd
      rw [he] at hd ⊢
      cases hd
      simpa [Task.errand?, happeningsOf] using Docket.Step.finishes
    | closeChannel =>
      cases htask
      cases hhome
      rintro ⟨p, errands⟩ hd
      rw [he] at hd ⊢
      cases hd
      simpa [Task.errand?, happeningsOf, he] using Docket.Step.closes (p := none)
    | claimReceiver => exact turns_same rfl rfl nofun
    | _ => contradiction
  | passes htask | polls htask => rcases htask with rfl | ⟨_, rfl⟩ <;> contradiction
  | givesUp hreply =>
    refine turns_same rfl ?_ fun g hg _ => by cases hg; rfl
    rw [← hr] at hreply
    simp only [happeningsOf]
    split
    · next hcount _ => exact (hreply _ hcount).elim
    · rfl
  | pauses hx =>
    cases hhome
    rintro ⟨p, errands⟩ hd
    rw [hx] at hd
    cases hd
    simpa [Task.errand?, List.filterMap_cons, happeningsOf, hr, hx, World.pauseReport,
      Board.setPhase, Engine.board] using Docket.Step.pauses
  | leavesPending | claims | claimed | accepts | enrols =>
    cases hhome
    exact turns_same (by simp [Task.errand?, List.filterMap_cons]) rfl fun g hg _ => by cases hg <;>
      rfl
  | schedulesNothing =>
    cases hhome
    exact turns_of_step nofun fun p r _ => by simpa [Task.errand?,
      happeningsOf] using Docket.Step.empties
  | refuses | bounces =>
    cases hhome
    refine turns_of_step (fun g hg _ => by cases hg <;> rfl) fun p r _ => ?_
    simpa [Task.errand?, happeningsOf] using Docket.Step.refuses
  | @sends _ x _ _ _ hx hopen =>
    cases hhome
    rintro ⟨p, errands⟩ hd
    rw [hx] at hd
    cases hd
    simpa [Task.errand?, happeningsOf, hx, Engine.board, Engine.post, Board.send] using
      Docket.Step.sends (p := x.post) hopen
  | finishes =>
    cases hhome
    refine turns_of_step (fun g hg _ => by cases hg; rfl) fun p r _ => ?_
    simpa [Task.errand?, List.filterMap_cons, happeningsOf] using Docket.Step.finishes
  | serves hx hjobs =>
    cases hhome
    refine turns_receive hx hjobs rfl fun messages r hchannel => ?_
    rw [List.filterMap_append, filterMap_errand?_runJob, Docket.add_append]
    simpa [Task.errand?] using Docket.Step.receives hchannel
  | hears hx hcall =>
    cases hhome
    refine turns_receive hx hcall rfl fun messages r hchannel => ?_
    simpa [Task.errand?] using Docket.Step.leaves hchannel
  | drains hx hjobs =>
    cases hhome
    refine turns_receive hx hjobs rfl fun messages r hchannel => ?_
    rw [List.filterMap_append, filterMap_errand?_runJob, Docket.add_append]
    simpa [Task.errand?] using Docket.Step.runs hchannel
  | drainsAway hx hjobs | drainsUnstarted hx hjobs =>
    cases hhome
    refine turns_receive hx hjobs rfl fun messages r hchannel => ?_
    simpa [Task.errand?, Multiset.cons_swap] using Docket.Step.drops hchannel
  | skips hx hcall | skipsUnstarted hx hcall =>
    cases hhome
    refine turns_receive hx hcall rfl fun messages r hchannel => ?_
    simpa [Task.errand?] using Docket.Step.skips hchannel
  | departs hempty | departsUnstarted hempty =>
    cases hhome
    refine turns_of_step nofun fun p r hd => ?_
    have hchannel : ∀ q, p = some q → q.channel = [] := by
      rintro q rfl
      obtain ⟨x, hx, rfl⟩ := Option.map_eq_some_iff.mp hd.symm
      exact hempty x hx
    simpa [Task.errand?, List.filterMap_cons, happeningsOf] using Docket.Step.ends hchannel
  | @closes _ x _ hx =>
    cases hhome
    rintro ⟨p, errands⟩ hd
    rw [hx] at hd
    cases hd
    simpa [Task.errand?, List.filterMap_cons, happeningsOf, hx, Engine.board, Engine.post,
      Board.close] using Docket.Step.closes (p := some x.post)
  | runs =>
    cases hhome
    refine turns_of_step nofun fun p r _ => ?_
    simpa [Task.errand?, List.filterMap_cons, happeningsOf] using Docket.Step.begins
  | discards =>
    cases hhome
    refine turns_of_step nofun fun p r _ => ?_
    simpa [Task.errand?, List.filterMap_cons, happeningsOf] using Docket.Step.discards
  | discarded =>
    cases hhome
    refine turns_of_step (fun g hg _ => by cases hg; rfl) fun p r _ => ?_
    simpa [Task.errand?, List.filterMap_cons, happeningsOf] using Docket.Step.counts
  | claimsReceiver hx hreceiver =>
    cases hhome
    exact hstops (.claimsReceiver hx hreceiver)
  | asksToLeave hx hreceiver hjoinable =>
    cases hhome
    exact hstops (.asksToLeave hx hreceiver hjoinable)
  | _ => first | contradiction | exact turns_same rfl rfl fun g hg _ => by cases hg <;> rfl

theorem happenings_of_stackOf (hstep : (w.step t).isSome = true)
    (hs : w.stackOf t = some ⟨task :: rest, r⟩) :
    w.happenings e (.step t) = w.happeningsOf t e task := by
  rw [happenings, if_pos hstep, nextTask_of_stackOf hs, Option.elim_some]

theorem happeningsOf_take (task : Task) :
    (w.take t rest).happeningsOf t e task = w.happeningsOf t e task := by
  have hreply : (w.take t rest).replyOf t = w.replyOf t := by
    unfold replyOf take modifyThread
    rw [Array.getElem?_modify, if_pos rfl]
    cases w.threads[t]? <;> rfl
  cases task with
  | pause e' cycle reason =>
    simp only [happeningsOf, hreply]
    rfl
  | discardJobs e' jobs n => cases jobs <;> rfl
  | _ => rfl

/-- **A move takes dockets some steps on.** -/
theorem course_move (hc : w.core.Regular) (m : Move) :
    (w.docket e).Course (w.happenings e m) ((w.move m).docket e) := by
  rw [← docket_floor, ← docket_floor]
  have hmove := rearranges_move w m
  generalize (w.move m).floor = f at hmove ⊢
  cases hmove with
  | rests hrests =>
    have hnothing : w.happenings e m = [] := by
      cases m with
      | step t => simp [happenings, hrests t rfl]
      | _ => rfl
    rw [hnothing]
    exact .refl
  | comes =>
    have hsame : Floor.docket e { w.floor with threads := w.floor.threads.push ⟨[], .unit⟩ } =
        w.floor.docket e := by
      simp [Floor.docket, total_push]
    rw [hsame]
    exact .refl
  | @instructs t number timed i r hs =>
    rw [Floor.docket_put ⟨[.perform i], r⟩ ((threads_floor t).trans hs) rfl]
    exact .refl
  | @steps t task rest tasks r a c hstep hs h =>
    obtain ⟨d, hpost, hbefore, hafter⟩ := Floor.exists_docket ((threads_floor t).trans hs)
    rw [happenings_of_stackOf hstep hs, Floor.docket_alter, hafter, Floor.boards_alter,
      Floor.boards_put, boards_floor, hbefore, Option.map_map, Option.map_map]
    rw [boards_floor, Option.map_map] at hpost
    exact (turns_of_produces (by simp [core]) (hc.fits t ⟨task :: rest, r⟩ (by simpa [core,
        stackOf] using hs) task List.mem_cons_self) (replyOf_of_stackOf hs) h d hpost).course
  | @performs t i rest tasks r a f hstep hs h hf =>
    have hthere :=
      hf.threads_of_some (Floor.getElem?_put_self ((threads_floor t).trans hs) ⟨rest, r⟩)
    have hnone : tasks.filterMap (Task.errand? e) = [] :=
      List.filterMap_eq_nil_iff.mpr fun x hx => Task.errand?_of_load (by simp [h.load_eq_none hx])
    have htasks : (tasks ++ rest).filterMap (Task.errand? e) = rest.filterMap (Task.errand? e) := by
      rw [List.filterMap_append, hnone, List.nil_append]
    rw [happenings_of_stackOf hstep hs, Floor.docket_put _ hthere htasks,
      ← Floor.docket_put ⟨rest, r⟩ ((threads_floor t).trans hs) rfl]
    exact hf.docket e

/-- **Along a run dockets take only such steps, with what is seen in the run.** -/
theorem course_moves (hc : w.core.Regular) (moves : List Move) :
    (w.docket e).Course (w.course e moves) ((w.after moves).docket e) := by
  induction moves generalizing w with
  | nil => exact .refl
  | cons m rest ih => exact (course_move hc m).trans (ih ((acts_move hc m).progress.2 hc))

theorem course_start (s : EngineSpec) (label : String) :
    (({} : World).docket e).Course [] ((start s label).docket e) := by
  rw [← docket_floor, ← docket_floor]
  exact (floor_start s label).docket e

theorem course_after (s : EngineSpec) (label : String) (moves : List Move) :
    (({} : World).docket e).Course ((start s label).course e moves)
    (((start s label).after moves).docket e) :=
  (course_start s label).trans (course_moves ((acts_start s label).progress.2 regular_empty) moves)

end Steps

end World

end ManagedHeap
