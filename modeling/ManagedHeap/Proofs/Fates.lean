import ManagedHeap.Proofs.CollectionJobs

/-!
# The fate of jobs

**Input.**  The docket of an engine along a run.

**Algorithm.**  The receiving end of a channel is with one thread at most: the finalizer thread that
serves it, whoever drains it after a call to stop, or whoever closes it.  What is on the channel in
front of the first call to stop is handed out to be run; what is behind it is dropped, if finalizers
do not run on exit.

**Results.**  `Docket.Course.ahead_eq`: after a call to stop, what is ahead of it is run and nothing
else.  `Docket.Course.doomed_le`: what is behind it is dropped, unless it comes when nobody looks
any more.  `Docket.Course.counts_eq`: what is dropped is counted.
-/

namespace ManagedHeap

variable {x : Errand} {b : Bool}

/-- Whether an errand is the receiving end of a channel. -/
def Errand.isReceiver : Errand → Bool
  | .serve | .drain _ | .close => true
  | _ => false

/-- Number of threads that have the receiving end of a channel. -/
def receivers (r : Multiset Errand) : Nat := r.countP (·.isReceiver = true)

@[simp]
theorem receivers_cons (x : Errand) (r : Multiset Errand) :
    receivers (x ::ₘ r) = (if x.isReceiver then 1 else 0) + receivers r := by
  rw [receivers, Multiset.countP_cons, add_comm]
  rfl

@[simp]
theorem receivers_add_jobs (jobs : List (Job Finalizer)) (r : Multiset Errand) :
    receivers (↑(jobs.map Errand.job) + r) = receivers r := by
  have hjobs :
      Multiset.countP (fun x : Errand => x.isReceiver = true) ↑(jobs.map Errand.job) = 0 := by
    rw [Multiset.countP_eq_zero]
    simp [Errand.isReceiver]
  rw [receivers, Multiset.countP_add, hjobs, zero_add]
  rfl

theorem receivers_pos (h : x ∈ r) (hx : x.isReceiver = true) : 0 < receivers r :=
  Multiset.countP_pos.mpr ⟨x, h, hx⟩

def Receiver.holders : Receiver → Nat
  | .claimed => 1
  | _ => 0

section Queue

variable {c : List (Message Finalizer)}

def jobsBefore : List (Message Finalizer) → List (Job Finalizer)
  | [] => []
  | .run jobs :: rest => jobs ++ jobsBefore rest
  | .shutdown _ :: _ => []

def jobsBehind : List (Message Finalizer) → List (Job Finalizer)
  | [] => []
  | .run _ :: rest => jobsBehind rest
  | .shutdown _ :: rest => rest.flatMap World.jobsOf

theorem jobsBefore_append (h : .shutdown b ∈ c) (more : List (Message Finalizer)) :
    jobsBefore (c ++ more) = jobsBefore c := by
  induction c with
  | nil => cases h
  | cons m rest ih =>
    cases m with
    | run jobs => simp_all [jobsBefore]
    | shutdown b => rfl

theorem jobsBehind_append (h : .shutdown b ∈ c) (more : List (Message Finalizer)) :
    jobsBehind (c ++ more) = jobsBehind c ++ more.flatMap World.jobsOf := by
  induction c with
  | nil => cases h
  | cons m rest ih =>
    cases m with
    | run jobs => simp_all [jobsBehind]
    | shutdown b => simp [jobsBehind]

theorem jobsBefore_eq (h : ∀ b, .shutdown b ∉ c) : jobsBefore c = c.flatMap World.jobsOf := by
  induction c with
  | nil => rfl
  | cons m rest ih =>
    cases m with
    | run jobs => simp_all [jobsBefore, World.jobsOf]
    | shutdown b => exact (h b List.mem_cons_self).elim

theorem jobsBefore_append_shutdown (c : List (Message Finalizer)) (b : Bool) :
    jobsBefore (c ++ [.shutdown b]) = jobsBefore c := by
  induction c with
  | nil => rfl
  | cons m rest ih =>
    cases m with
    | run jobs => simp_all [jobsBefore]
    | shutdown b => rfl

end Queue

namespace Errand

/-- The jobs that an errand has still to see run, with what is on the channel. -/
def ahead (c : List (Message Finalizer)) : Errand → Multiset (Job Finalizer)
  | .job j => {j}
  | .serve => ↑(jobsBefore c)
  | .drain true => ↑(c.flatMap World.jobsOf)
  | _ => 0

/-- The jobs that an errand has still to see dropped, with what is on the channel; if `late`, also
those that are on their way to it and those that came when nobody looks any more. -/
def doomed (late : Bool) (c : List (Message Finalizer)) : Errand → Multiset (Job Finalizer)
  | .discard jobs _ => ↑jobs
  | .serve => ↑(jobsBehind c)
  | .drain false => ↑(c.flatMap World.jobsOf)
  | .parcel jobs _ => if late then ↑jobs else 0
  | .close => if late then ↑(c.flatMap World.jobsOf) else 0
  | _ => 0

def next : Errand → Multiset (Job Finalizer)
  | .job j => {j}
  | _ => 0

/-- The jobs that are about to be dropped, or on their way. -/
def batch (late : Bool) : Errand → Multiset (Job Finalizer)
  | .discard jobs _ => ↑jobs
  | .parcel jobs _ => if late then ↑jobs else 0
  | _ => 0

/-- How many jobs were dropped and are still to be counted. -/
def uncounted : Errand → Nat
  | .discard jobs n => n - jobs.length
  | _ => 0

theorem ahead_of_not_isReceiver (h : x.isReceiver = false) (c : List (Message Finalizer)) :
    x.ahead c = x.next := by
  cases x with
  | serve | drain | close => cases h
  | _ => rfl

theorem doomed_of_not_isReceiver (h : x.isReceiver = false) (c : List (Message Finalizer)) :
    x.doomed b c = x.batch b := by
  cases x with
  | serve | drain | close => cases h
  | _ => rfl

end Errand

def begunIn (hs : List Happening) : Multiset (Job Finalizer) :=
  ↑(hs.filterMap fun | .begun j => some j | _ => none)

def droppedIn (hs : List Happening) : Multiset (Job Finalizer) :=
  ↑(hs.filterMap fun | .discarded j => some j | _ => none)

def lostIn (hs : List Happening) : Multiset (Job Finalizer) :=
  ↑(hs.filterMap fun | .lost j => some j | _ => none)

def countedIn (hs : List Happening) : Nat := (hs.map fun | .counted n => n | _ => 0).sum

theorem begunIn_append (hs hs' : List Happening) :
    begunIn (hs ++ hs') = begunIn hs + begunIn hs' := by
  simp [begunIn]

theorem droppedIn_append (hs hs' : List Happening) :
    droppedIn (hs ++ hs') = droppedIn hs + droppedIn hs' := by
  simp [droppedIn]

theorem countedIn_append (hs hs' : List Happening) :
    countedIn (hs ++ hs') = countedIn hs + countedIn hs' := by
  simp [countedIn]

theorem lostIn_append (hs hs' : List Happening) : lostIn (hs ++ hs') = lostIn hs + lostIn hs' := by
  rw [lostIn, List.filterMap_append, ← Multiset.coe_add]; rfl

theorem in_map_lost (jobs : List (Job Finalizer)) :
    begunIn (jobs.map .lost) = 0 ∧ droppedIn (jobs.map .lost) = 0 ∧
    countedIn (jobs.map .lost) = 0 ∧ lostIn (jobs.map .lost) = jobs := by
  simp [begunIn, droppedIn, countedIn, lostIn, Function.comp_def]

namespace Docket

variable {d d' : Docket} {hs : List Happening} {p : Option Post}

section Sound

/-- Who has the receiving end of the channel; nobody has that of an engine that is still to be
made. -/
def receiver (d : Docket) : Receiver := d.post.elim .unclaimed Post.receiver

def joinable (d : Docket) : Bool := d.post.elim false Post.joinable

def channel (d : Docket) : List (Message Finalizer) := d.post.elim [] Post.channel

def runsOnExit (d : Docket) : Bool := d.post.elim false Post.runsOnExit

/-- What holds of every docket of a run. -/
structure Sound (d : Docket) : Prop where
  /-- The receiving end is with one thread at most. -/
  token : receivers d.errands = d.receiver.holders
  unstarted : d.receiver = .unclaimed →
    d.joinable = false ∧ (∀ j, .job j ∉ d.errands) ∧ ∀ b, .shutdown b ∉ d.channel
  serving : d.joinable = true → .serve ∈ d.errands ∧ ∀ b, .shutdown b ∉ d.channel
  told : .serve ∈ d.errands → d.joinable = true ∨ ∃ b, .shutdown b ∈ d.channel
  faithful : d.runsOnExit = false → .drain true ∉ d.errands ∧ .shutdown true ∉ d.channel
  counted : ∀ jobs n, .discard jobs n ∈ d.errands → jobs.length ≤ n

theorem Sound.alone (hd : Sound ⟨p, x ::ₘ r⟩) (hx : x.isReceiver = true) :
    p.elim .unclaimed Post.receiver = .claimed ∧ receivers r = 0 ∧ .serve ∉ r := by
  have htoken := hd.token
  rw [receivers_cons, if_pos hx] at htoken
  cases hreceiver : p.elim .unclaimed Post.receiver with
  | claimed =>
    have hnone : receivers r = 0 := by simpa [receiver, hreceiver, Receiver.holders] using htoken
    exact ⟨rfl, hnone, fun hmem => (receivers_pos hmem rfl).ne' hnone⟩
  | unclaimed | closed => simp [receiver, hreceiver, Receiver.holders] at htoken

theorem Sound.serve_not_mem (hd : d.Sound) (h : d.receiver = .unclaimed) : .serve ∉ d.errands := by
  intro hmem
  have hpos := receivers_pos hmem rfl
  rw [hd.token, h] at hpos
  cases hpos

/-- What a call to stop can find: nobody to tell, a thread that never started, or a thread at
work. -/
theorem Sound.stop_cases (hd : d.Sound) :
    (d.stop = d ∧ (d.receiver = .unclaimed → d.post = none) ∧ d.joinable = false) ∨
      ∃ p r, d = ⟨some p, r⟩ ∧
        (p.receiver = .unclaimed ∧
            d.stop = ⟨some { p with receiver := .claimed }, .drain false ::ₘ r⟩ ∨
          p.joinable = true ∧ p.receiver = .claimed ∧
            d.stop = ⟨some { p with
              joinable := false, channel := p.channel ++ [.shutdown p.runsOnExit] }, r⟩) := by
  obtain ⟨_ | p, r⟩ := d
  · exact .inl ⟨rfl, fun _ => rfl, rfl⟩
  · cases hreceiver : p.receiver with
    | unclaimed => exact .inr ⟨p, r, rfl, .inl ⟨hreceiver, by simp [Docket.stop, hreceiver]⟩⟩
    | claimed =>
      cases hjoinable : p.joinable with
      | false => exact .inl ⟨by simp [Docket.stop, hreceiver,
            hjoinable], by simp [receiver, hreceiver], hjoinable⟩
      | true => exact .inr ⟨p, r, rfl,
            .inr ⟨hjoinable, hreceiver, by simp [Docket.stop, hreceiver, hjoinable]⟩⟩
    | closed =>
      -- a channel that is closed has no thread at work
      have hjoinable : p.joinable = false := by
        rw [← Bool.not_eq_true]
        intro hjoinable
        have hpos := receivers_pos (hd.serving hjoinable).1 rfl
        simp [hd.token, receiver, hreceiver, Receiver.holders] at hpos
      exact .inl ⟨by simp [Docket.stop, hreceiver, hjoinable], by simp [receiver, hreceiver],
        hjoinable⟩

/-- What a docket keeps if the receiving end stays where it is and nobody is told anything. -/
theorem Sound.frame (hd : d.Sound) (hreceiver : d'.receiver = d.receiver)
    (hjoinable : d'.joinable = d.joinable) (hruns : d'.runsOnExit = d.runsOnExit)
    (hchannel : ∀ b, .shutdown b ∈ d'.channel ↔ .shutdown b ∈ d.channel)
    (htoken : receivers d'.errands = receivers d.errands)
    (hserve : .serve ∈ d'.errands ↔ .serve ∈ d.errands)
    (hdrain : .drain true ∈ d'.errands → .drain true ∈ d.errands)
    (hjob : d.receiver = .unclaimed → ∀ j, .job j ∈ d'.errands → .job j ∈ d.errands)
    (hcounted : ∀ jobs n, .discard jobs n ∈ d'.errands → jobs.length ≤ n) : d'.Sound where
  token := by rw [htoken, hreceiver, hd.token]
  unstarted := by
    intro hunclaimed
    rw [hreceiver] at hunclaimed
    obtain ⟨hidle, hjobs, hopen⟩ := hd.unstarted hunclaimed
    exact ⟨hjoinable.trans hidle, fun j hj => hjobs j (hjob hunclaimed j hj),
      fun b hb => hopen b ((hchannel b).mp hb)⟩
  serving := by
    intro hserving
    obtain ⟨hmem, hopen⟩ := hd.serving (hjoinable ▸ hserving)
    exact ⟨hserve.mpr hmem, fun b hb => hopen b ((hchannel b).mp hb)⟩
  told := by
    intro hmem
    rw [hjoinable]
    exact (hd.told (hserve.mp hmem)).imp_right fun ⟨b, hb⟩ => ⟨b, (hchannel b).mpr hb⟩
  faithful := by
    intro hoff
    obtain ⟨hno, hopen⟩ := hd.faithful (hruns ▸ hoff)
    exact ⟨fun hmem => hno (hdrain hmem), fun hb => hopen ((hchannel true).mp hb)⟩
  counted := hcounted

theorem Sound.stop (hd : d.Sound) : d.stop.Sound := by
  obtain ⟨hsame, -⟩ | ⟨p, r, rfl, ⟨hunclaimed, hstop⟩ | ⟨hjoinable, hclaimed, hstop⟩⟩ :=
    hd.stop_cases
  · rwa [hsame]
  · have hserve := hd.serve_not_mem hunclaimed
    obtain ⟨htoken, hunstarted, hserving, htold, hfaithful, hcounted⟩ := hd
    rw [hstop]
    constructor
    all_goals simp_all [receiver, joinable, channel, runsOnExit, Errand.isReceiver,
      Receiver.holders]
  · obtain ⟨htoken, hunstarted, hserving, htold, hfaithful, hcounted⟩ := hd
    rw [hstop]
    constructor
    all_goals simp_all [receiver, joinable, channel, runsOnExit]

theorem Step.counted (h : Step d hs d') (hd : d.Sound) (jobs : List (Job Finalizer)) (n : Nat)
    (hmem : .discard jobs n ∈ d'.errands) : jobs.length ≤ n := by
  have hcounted := hd.counted
  cases h with
  | idle => exact hcounted jobs n hmem
  | stops => exact hd.stop.counted jobs n hmem
  | _ =>
    simp only [Multiset.mem_cons, Multiset.mem_add, Multiset.mem_coe, List.mem_map] at hcounted hmem
    grind

theorem Step.sound (h : Step d hs d') (hd : d.Sound) : d'.Sound := by
  have hcounted := h.counted hd
  cases h with
  | idle => exact hd
  | stops => exact hd.stop
  | opens hunclaimed hjoinable hchannel =>
    have hserve := hd.serve_not_mem rfl
    obtain ⟨htoken, hunstarted, -⟩ := hd
    constructor
    all_goals simp_all [receiver, joinable, channel, runsOnExit]
  | hires hunclaimed =>
    have hserve := hd.serve_not_mem hunclaimed
    obtain ⟨htoken, hunstarted, -, -, hfaithful, -⟩ := hd
    constructor
    all_goals simp_all [receiver, joinable, channel, runsOnExit, Post.hired, Receiver.holders,
      Errand.isReceiver]
  | @leaves rest p r b hchannel =>
    obtain ⟨hclaimed, hnone, hserve⟩ := hd.alone rfl
    have hjoinable : p.joinable = false := by
      rw [← Bool.not_eq_true]
      exact fun hjoinable => (hd.serving hjoinable).2 b (by simp [channel, hchannel])
    have hfaithful := hd.faithful
    constructor
    all_goals simp_all [receiver, joinable, channel, runsOnExit, Errand.isReceiver,
      Receiver.holders]
  | @skips rest p b r c hchannel =>
    obtain ⟨hclaimed, hnone, hserve⟩ := hd.alone rfl
    obtain ⟨-, -, hserving, -, hfaithful, -⟩ := hd
    constructor
    all_goals simp_all [receiver, joinable, channel, runsOnExit, Errand.isReceiver,
      Receiver.holders]
  | @closes p r =>
    obtain ⟨hclaimed, hnone, hserve⟩ := hd.alone rfl
    obtain ⟨-, -, hserving, -, hfaithful, -⟩ := hd
    cases p with
    | none => cases hclaimed
    | some p =>
      constructor
      all_goals simp_all [receiver, joinable, channel, runsOnExit, Receiver.holders]
  | receives hchannel | runs hchannel =>
    have hclaimed := (hd.alone rfl).1
    refine hd.frame rfl rfl rfl ?_ ?_ ?_ ?_ (fun hunclaimed => ?_) hcounted
    · simp [channel, hchannel]
    · simp
    · simp
    · simp
    · cases hclaimed.symm.trans hunclaimed
  | sends | drops =>
    refine hd.frame rfl rfl rfl ?_ ?_ ?_ ?_ ?_ hcounted
    · simp_all [channel]
    all_goals simp [Errand.isReceiver]
  | _ =>
    refine hd.frame rfl rfl rfl (fun _ => .rfl) ?_ ?_ ?_ ?_ hcounted
    all_goals simp +contextual [Errand.isReceiver]

theorem Course.sound (h : Course d hs d') (hd : d.Sound) : d'.Sound := by
  induction h with
  | refl => exact hd
  | tail _ step ih => exact step.sound ih

end Sound

section Fates

def ahead (d : Docket) : Multiset (Job Finalizer) := d.errands.bind (Errand.ahead d.channel)

/-- The jobs that will still be dropped; if `late`, also those that are on their way or came when
nobody looks. -/
def doomed (late : Bool) (d : Docket) : Multiset (Job Finalizer) :=
  d.errands.bind (Errand.doomed late d.channel)

/-- The jobs that wait for the finalizer thread: the rest of its batch and what is on the
channel. -/
def queued (d : Docket) : Multiset (Job Finalizer) :=
  d.errands.bind Errand.next + ↑(d.channel.flatMap World.jobsOf)

/-- How many jobs were dropped and are still to be counted. -/
def uncounted (r : Multiset Errand) : Nat := (r.map Errand.uncounted).sum

theorem ahead_cons (p : Option Post) (x : Errand) (r : Multiset Errand) :
    ahead ⟨p, x ::ₘ r⟩ = x.ahead (p.elim [] Post.channel) + ahead ⟨p, r⟩ :=
  Multiset.cons_bind ..

theorem doomed_cons (p : Option Post) (x : Errand) (r : Multiset Errand) :
    doomed b ⟨p, x ::ₘ r⟩ = x.doomed b (p.elim [] Post.channel) + doomed b ⟨p, r⟩ :=
  Multiset.cons_bind ..

theorem uncounted_cons (x : Errand) (r : Multiset Errand) :
    uncounted (x ::ₘ r) = x.uncounted + uncounted r := by
  rw [uncounted, Multiset.map_cons, Multiset.sum_cons]
  rfl

variable {r : Multiset Errand}

theorem ahead_alone (h : receivers r = 0) : ahead ⟨p, r⟩ = r.bind Errand.next := by
  refine Multiset.bind_congr fun x hx => Errand.ahead_of_not_isReceiver ?_ _
  rw [← Bool.not_eq_true]
  exact Multiset.countP_eq_zero.mp h x hx

theorem doomed_alone (h : receivers r = 0) : doomed b ⟨p, r⟩ = r.bind (Errand.batch b) := by
  refine Multiset.bind_congr fun x hx => Errand.doomed_of_not_isReceiver ?_ _
  rw [← Bool.not_eq_true]
  exact Multiset.countP_eq_zero.mp h x hx

theorem bind_next_jobs (jobs : List (Job Finalizer)) :
    (↑(jobs.map Errand.job) : Multiset Errand).bind Errand.next = ↑jobs := by
  induction jobs with
  | nil => rfl
  | cons j jobs ih => rw [List.map_cons, ← Multiset.cons_coe, Multiset.cons_bind, ih]; rfl

theorem bind_batch_jobs (jobs : List (Job Finalizer)) :
    (↑(jobs.map Errand.job) : Multiset Errand).bind (Errand.batch b) = 0 := by
  induction jobs with
  | nil => rfl
  | cons j jobs ih => rw [List.map_cons, ← Multiset.cons_coe, Multiset.cons_bind, ih]; rfl

/-- A docket whose thread was told to drop what it finds. -/
structure Told (d : Docket) : Prop extends Sound d where
  drops : d.runsOnExit = false
  joined : d.joinable = false
  claimed : d.receiver ≠ .unclaimed

theorem Told.stop_eq (hd : d.Told) : d.stop = d := by
  obtain ⟨hsame, -⟩ | ⟨p, r, rfl, ⟨hunclaimed, -⟩ | ⟨hjoinable, -⟩⟩ := hd.stop_cases
  · exact hsame
  · exact (hd.claimed hunclaimed).elim
  · cases hd.joined.symm.trans hjoinable

theorem Told.drain_eq (hd : d.Told) (h : .drain b ∈ d.errands) : b = false := by
  cases b with
  | false => rfl
  | true => exact ((hd.faithful hd.drops).1 h).elim

theorem Told.shutdown_eq (hd : d.Told) (h : .shutdown b ∈ d.channel) : b = false := by
  cases b with
  | false => rfl
  | true => exact ((hd.faithful hd.drops).2 h).elim

theorem Step.isTold (h : Step d hs d') (hd : d.Told) : d'.Told := by
  have htold := hd
  obtain ⟨hsound, hdrops, hjoined, hclaimed⟩ := htold
  replace hsound := h.sound hsound
  cases h with
  | stops => rwa [hd.stop_eq]
  | @closes p r =>
    cases p with
    | none => exact (hclaimed rfl).elim
    | some p => exact ⟨hsound, hdrops, hjoined, nofun⟩
  | _ =>
    refine ⟨hsound, ?_, ?_, ?_⟩
    all_goals simp_all [receiver, joinable, runsOnExit]

/-- **What is ahead of a call to stop is run, and nothing else.** -/
theorem Step.ahead_eq (h : Step d hs d') (hd : d.Told) : begunIn hs + d'.ahead = d.ahead := by
  cases h with
  | idle => exact zero_add _
  | stops => rw [hd.stop_eq]; exact zero_add _
  | opens => exact (hd.claimed rfl).elim
  | hires hunclaimed => exact (hd.claimed hunclaimed).elim
  | @sends p jobs n r hopen =>
    -- the thread has been told, so that the batch comes too late
    have hsame : ∀ x ∈ r, x.ahead (p.channel ++ [.run jobs]) = x.ahead p.channel := by
      intro x hx
      cases x with
      | serve =>
        obtain hjoinable | ⟨b, hb⟩ := hd.told (Multiset.mem_cons_of_mem hx)
        · cases hd.joined.symm.trans hjoinable
        · exact congrArg _ (jobsBefore_append hb _)
      | drain b =>
        obtain rfl := hd.drain_eq (Multiset.mem_cons_of_mem hx)
        rfl
      | _ => rfl
    have hrest : ahead ⟨some { p with channel := p.channel ++ [.run jobs] }, r⟩ =
        ahead ⟨some p, r⟩ := Multiset.bind_congr hsame
    rw [ahead_cons, ahead_cons, hrest]
    exact zero_add _
  | @receives rest p r jobs hchannel =>
    obtain ⟨-, hnone, -⟩ := hd.alone rfl
    have hmore : receivers (↑(jobs.map Errand.job) + r) = 0 := by rw [receivers_add_jobs, hnone]
    calc begunIn [] + ahead ⟨some { p with channel := rest }, .serve ::ₘ
        (↑(jobs.map Errand.job) + r)⟩ = ↑(jobsBefore rest) + (↑jobs + r.bind Errand.next) := by
          rw [ahead_cons, ahead_alone hmore, Multiset.add_bind, bind_next_jobs]
          exact zero_add _
      _ = ↑(jobsBefore p.channel) + r.bind Errand.next := by
          rw [hchannel, jobsBefore, ← Multiset.coe_add]
          abel
      _ = ahead ⟨some p, .serve ::ₘ r⟩ := by rw [ahead_cons, ahead_alone hnone]; rfl
  | @leaves rest p r b hchannel =>
    obtain ⟨-, hnone, -⟩ := hd.alone rfl
    obtain rfl := hd.shutdown_eq (b := b) (by simp [channel, hchannel])
    rw [ahead_cons, ahead_cons, ahead_alone hnone, ahead_alone hnone]
    simp [begunIn, Errand.ahead, hchannel, jobsBefore]
  | runs => cases hd.drain_eq (Multiset.mem_cons_self _ _)
  | skips | ends =>
    obtain ⟨-, hnone, -⟩ := hd.alone rfl
    obtain rfl := hd.drain_eq (Multiset.mem_cons_self _ _)
    simp [begunIn, ahead_cons, Errand.ahead, ahead_alone hnone]
  | drops =>
    obtain ⟨-, hnone, -⟩ := hd.alone rfl
    simp [begunIn, ahead_cons, Errand.ahead, ahead_alone hnone]
  | closes =>
    obtain ⟨-, hnone, -⟩ := hd.alone rfl
    simp [(in_map_lost _).1, ahead_cons, Errand.ahead, ahead_alone hnone]
  | _ => simp [begunIn, ahead_cons, Errand.ahead]

theorem Told.receivers_eq {q : Post} (hd : Told ⟨some q, r⟩) (hopen : q.receiver ≠ .closed) :
    receivers r = 1 := by
  refine hd.token.trans ?_
  cases hreceiver : q.receiver with
  | unclaimed => exact (hd.claimed hreceiver).elim
  | claimed => rw [receiver, Option.elim_some, hreceiver]; rfl
  | closed => exact (hopen hreceiver).elim

theorem exists_receiver (hone : receivers r = 1) :
    ∃ x rest, r = x ::ₘ rest ∧ x.isReceiver = true ∧ receivers rest = 0 := by
  obtain ⟨x, hx, hreceiver⟩ := Multiset.countP_pos.mp (hone.symm ▸ Nat.one_pos : 0 < receivers r)
  obtain ⟨rest, rfl⟩ := Multiset.exists_cons_of_mem hx
  exact ⟨x, rest, rfl, hreceiver, by simpa [receivers_cons, hreceiver] using hone⟩

theorem Told.doomed_sends {q : Post} {jobs : List (Job Finalizer)}
    (hd : Told ⟨some q, .parcel jobs n ::ₘ r⟩)
    (hopen : q.receiver ≠ .closed) : doomed b ⟨some q, .parcel jobs n ::ₘ r⟩ ≤
      doomed b ⟨some { q with channel := q.channel ++ [.run jobs] }, r⟩ := by
  have hone := hd.receivers_eq hopen
  rw [receivers_cons] at hone
  obtain ⟨x, r, rfl, hreceiver, hnone⟩ := exists_receiver ((Nat.zero_add _).symm.trans hone)
  have hmem : x ∈ Errand.parcel jobs n ::ₘ x ::ₘ r :=
    Multiset.mem_cons_of_mem (Multiset.mem_cons_self x r)
  have hjobs : List.flatMap World.jobsOf [.run jobs] = jobs := List.append_nil jobs
  have hmore : (if b then (↑jobs : Multiset (Job Finalizer)) else 0) + x.doomed b q.channel ≤
      x.doomed b (q.channel ++ [.run jobs]) := by
    have hle : ∀ kept : Multiset (Job Finalizer),
        (if b then (↑jobs : Multiset (Job Finalizer)) else 0) + kept ≤ kept + ↑jobs := by
      intro kept
      rw [add_comm]
      split
      · exact le_rfl
      · exact add_le_add_right (Multiset.zero_le _) kept
    cases x with
    | serve =>
      obtain hjoinable | ⟨c, hc⟩ := hd.told hmem
      · cases hd.joined.symm.trans hjoinable
      · refine (hle _).trans_eq ?_
        have hbehind : jobsBehind (q.channel ++ [.run jobs]) = jobsBehind q.channel ++ _ :=
          jobsBehind_append hc _
        rw [Errand.doomed, Errand.doomed, hbehind, hjobs, Multiset.coe_add]
    | drain c =>
      obtain rfl := hd.drain_eq hmem
      refine (hle _).trans_eq ?_
      rw [Errand.doomed, Errand.doomed, List.flatMap_append, hjobs, Multiset.coe_add]
    | close =>
      cases b with
      | false => exact (zero_add _).le
      | true =>
        refine (hle _).trans_eq ?_
        simp only [Errand.doomed, if_true]
        rw [List.flatMap_append, hjobs, Multiset.coe_add]
    | _ => cases hreceiver
  rw [doomed_cons, doomed_cons, doomed_cons, doomed_alone hnone, doomed_alone hnone, ← add_assoc]
  exact add_le_add_left hmore _

/-- **What is behind a call to stop is dropped**, and only what comes when nobody looks any more can
be lost. -/
theorem Step.doomed_le (h : Step d hs d') (hd : d.Told) :
    d.doomed b ≤ droppedIn hs + (if b then lostIn hs else 0) + d'.doomed b := by
  have hnothing : ∀ m : Multiset (Job Finalizer),
      m ≤ droppedIn [] + (if b then lostIn [] else 0) + m := by
    intro m
    exact Multiset.le_add_left _ _
  cases h with
  | idle => exact hnothing _
  | stops => rw [hd.stop_eq]; exact hnothing _
  | opens => exact (hd.claimed rfl).elim
  | hires hunclaimed => exact (hd.claimed hunclaimed).elim
  | @sends p jobs n r hopen =>
    refine (hd.doomed_sends hopen).trans ((hnothing _).trans_eq ?_)
    rw [doomed_cons]
    exact congrArg _ (zero_add _).symm
  | @receives rest p r jobs hchannel =>
    obtain ⟨-, hnone, -⟩ := hd.alone rfl
    have hmore : receivers (↑(jobs.map Errand.job) + r) = 0 := by rw [receivers_add_jobs, hnone]
    refine le_trans (le_of_eq ?_) (hnothing _)
    rw [doomed_cons, doomed_cons, doomed_alone hnone, doomed_alone hmore, Multiset.add_bind,
      bind_batch_jobs]
    simp [Errand.doomed, hchannel, jobsBehind]
  | @leaves rest p r c hchannel =>
    obtain ⟨-, hnone, -⟩ := hd.alone rfl
    obtain rfl := hd.shutdown_eq (b := c) (by simp [channel, hchannel])
    refine le_trans (le_of_eq ?_) (hnothing _)
    simp [doomed_cons, Errand.doomed, hchannel, jobsBehind, doomed_alone hnone]
  | runs => cases hd.drain_eq (Multiset.mem_cons_self _ _)
  | @drops rest p r jobs hchannel =>
    obtain ⟨-, hnone, -⟩ := hd.alone rfl
    refine le_trans (le_of_eq ?_) (hnothing _)
    calc doomed b ⟨some p, .drain false ::ₘ r⟩
        = ↑(jobs ++ rest.flatMap World.jobsOf) + r.bind (Errand.batch b) := by
          rw [doomed_cons, doomed_alone hnone]
          simp only [Errand.doomed, Option.elim_some, hchannel, List.flatMap_cons, World.jobsOf]
      _ = ↑(rest.flatMap World.jobsOf) + (↑jobs + r.bind (Errand.batch b)) := by
          rw [← Multiset.coe_add]
          abel
      _ = _ := by rw [doomed_cons, doomed_cons, doomed_alone hnone]; rfl
  | skips hchannel =>
    obtain ⟨-, hnone, -⟩ := hd.alone rfl
    obtain rfl := hd.drain_eq (Multiset.mem_cons_self _ _)
    refine le_trans (le_of_eq ?_) (hnothing _)
    simp [doomed_cons, Errand.doomed, hchannel, doomed_alone hnone, World.jobsOf]
  | @ends p c r hchannel =>
    obtain ⟨-, hnone, -⟩ := hd.alone rfl
    obtain rfl := hd.drain_eq (Multiset.mem_cons_self _ _)
    have hempty : p.elim [] Post.channel = [] := by
      cases p with
      | none => rfl
      | some p => exact hchannel p rfl
    refine le_trans (le_of_eq ?_) (hnothing _)
    simp [doomed_cons, Errand.doomed, hempty, doomed_alone hnone]
  | @closes p r =>
    obtain ⟨-, hnone, -⟩ := hd.alone rfl
    obtain ⟨-, hdropped, -, hlost⟩ := in_map_lost ((p.elim [] Post.channel).flatMap World.jobsOf)
    rw [hdropped, hlost, zero_add, doomed_cons, doomed_alone hnone, doomed_alone hnone]
    exact le_rfl
  | discards => simp [droppedIn, lostIn, doomed_cons, Errand.doomed, ← Multiset.cons_coe]
  | refuses =>
    refine le_trans ?_ (hnothing _)
    cases b <;> simp [doomed_cons, Errand.doomed]
  | _ => simp [droppedIn, lostIn, doomed_cons, Errand.doomed]

theorem uncounted_add_jobs (jobs : List (Job Finalizer)) :
    uncounted (↑(jobs.map Errand.job) + r) = uncounted r := by
  simp [uncounted, Errand.uncounted, Function.comp_def]

/-- **What is dropped is counted.** -/
theorem Step.counts_eq (h : Step d hs d') (hd : d.Sound) :
    (droppedIn hs).card + uncounted d.errands = countedIn hs + uncounted d'.errands := by
  cases h with
  | stops =>
    obtain ⟨hsame, -⟩ | ⟨p, r, rfl, ⟨-, hstop⟩ | ⟨-, -, hstop⟩⟩ := hd.stop_cases
    · rw [hsame]; rfl
    · rw [hstop, uncounted_cons]
      simp [droppedIn, countedIn, Errand.uncounted]
    · rw [hstop]; rfl
  | discards =>
    have hle := hd.counted _ _ (Multiset.mem_cons_self _ _)
    simp only [droppedIn, countedIn, uncounted_cons, Errand.uncounted, List.length_cons] at hle ⊢
    simp
    omega
  | closes =>
    obtain ⟨-, hdropped, hcounted, -⟩ := in_map_lost _
    rw [hdropped, hcounted, uncounted_cons, Multiset.card_zero]
    exact congrArg _ (Nat.zero_add _)
  | _ => simp [droppedIn, countedIn, uncounted_cons, uncounted_add_jobs, Errand.uncounted]

theorem Course.ahead_eq (h : Course d hs d') (hd : d.Told) :
    begunIn hs + d'.ahead = d.ahead ∧ d'.Told := by
  induction h with
  | refl => exact ⟨by simp [begunIn], hd⟩
  | tail _ step ih =>
    obtain ⟨hahead, htold⟩ := ih
    exact ⟨by rw [begunIn_append, add_assoc, step.ahead_eq htold, hahead], step.isTold htold⟩

theorem Course.doomed_le (h : Course d hs d') (hd : d.Told) :
    d.doomed b ≤ droppedIn hs + (if b then lostIn hs else 0) + d'.doomed b := by
  induction h with
  | refl => exact Multiset.le_add_left _ _
  | @tail past d₁ hs' d₂ before step ih =>
    have hstep := step.doomed_le (b := b) (before.ahead_eq hd).2
    have hlost : (if b then lostIn (past ++ hs') else 0) =
        (if b then lostIn past else 0) + if b then lostIn hs' else 0 := by
      cases b with
      | false => rfl
      | true => exact lostIn_append past hs'
    calc d.doomed b ≤ droppedIn past + (if b then lostIn past else 0) + d₁.doomed b := ih
      _ ≤ droppedIn past + (if b then lostIn past else 0) +
          (droppedIn hs' + (if b then lostIn hs' else 0) + d₂.doomed b) := add_le_add_right hstep _
      _ = _ := by
        rw [droppedIn_append, hlost]
        abel

theorem Course.counts_eq (h : Course d hs d') (hd : d.Sound) :
    (droppedIn hs).card + uncounted d.errands = countedIn hs + uncounted d'.errands := by
  induction h with
  | refl => simp [droppedIn, countedIn]
  | tail before step ih =>
    have hstep := step.counts_eq (before.sound hd)
    rw [droppedIn_append, countedIn_append, Multiset.card_add]
    omega

theorem Sound.ahead_stop (hd : d.Sound) : d.stop.ahead = d.ahead := by
  obtain ⟨hsame, -⟩ | ⟨p, r, rfl, ⟨-, hstop⟩ | ⟨-, -, hstop⟩⟩ := hd.stop_cases
  · rw [hsame]
  · rw [hstop, ahead_cons]
    exact zero_add _
  · rw [hstop]
    refine Multiset.bind_congr fun x _ => ?_
    cases x with
    | serve => exact congrArg _ (jobsBefore_append_shutdown _ _)
    | drain b => cases b <;> simp [Errand.ahead, channel, World.jobsOf]
    | _ => rfl

theorem Sound.told_stop (hd : d.Sound) {p : Post} (hp : d.post = some p)
    (h : p.runsOnExit = false) : d.stop.Told := by
  obtain ⟨hsame, hnone, hjoinable⟩ |
    ⟨q, r, rfl, ⟨hunclaimed, hstop⟩ | ⟨hjoinable, hclaimed, hstop⟩⟩ := hd.stop_cases
  · rw [hsame]
    refine ⟨hd, by rwa [runsOnExit, hp], hjoinable, fun hunclaimed => ?_⟩
    cases hp.symm.trans (hnone hunclaimed)
  · cases hp
    have hjoinable := (hd.unstarted hunclaimed).1
    refine ⟨hd.stop, ?_, ?_, ?_⟩
    all_goals rw [hstop]
    · exact h
    · exact hjoinable
    · exact nofun
  · cases hp
    refine ⟨hd.stop, ?_, ?_, ?_⟩
    all_goals rw [hstop]
    · exact h
    · rfl
    · simp [receiver, hclaimed]

theorem jobsBefore_add_jobsBehind (c : List (Message Finalizer)) :
    (↑(jobsBefore c) + ↑(jobsBehind c) : Multiset (Job Finalizer)) = ↑(c.flatMap World.jobsOf) := by
  induction c with
  | nil => rfl
  | cons m rest ih =>
    cases m with
    | run jobs =>
      rw [List.flatMap_cons, ← Multiset.coe_add, ← ih, ← add_assoc, Multiset.coe_add]; rfl
    | shutdown b => exact zero_add _

/-- Until the last look at the channel, all that is on it is going to be run or dropped. -/
theorem Told.channel_le (hd : d.Told) (hp : d.post = some q) (hreceiver : q.receiver ≠ .closed)
    (hopen : .close ∉ d.errands) :
    ↑(q.channel.flatMap World.jobsOf) ≤ d.ahead + d.doomed false := by
  obtain ⟨p, r⟩ := d
  cases hp
  obtain ⟨x, r, rfl, hx, -⟩ := exists_receiver (hd.receivers_eq hreceiver)
  have hmem := Multiset.mem_cons_self x r
  rw [ahead_cons, doomed_cons, add_add_add_comm]
  refine le_trans (le_of_eq ?_) (Multiset.le_add_right _ _)
  cases x with
  | serve => exact (jobsBefore_add_jobsBehind _).symm
  | drain c =>
    obtain rfl := hd.drain_eq hmem
    exact (zero_add _).symm
  | close => exact (hopen hmem).elim
  | _ => cases hx

theorem Sound.ahead_eq_queued (hd : d.Sound) (h : d.joinable = true) : d.ahead = d.queued := by
  obtain ⟨p, r⟩ := d
  obtain ⟨hserve, hopen⟩ := hd.serving h
  obtain ⟨r, rfl⟩ := Multiset.exists_cons_of_mem hserve
  obtain ⟨-, hnone, -⟩ := hd.alone rfl
  calc ahead ⟨p, .serve ::ₘ r⟩ = ↑(jobsBefore (channel ⟨p, .serve ::ₘ r⟩)) +
      r.bind Errand.next := by
        rw [ahead_cons, ahead_alone hnone]
        rfl
    _ = queued ⟨p, .serve ::ₘ r⟩ := by
        rw [jobsBefore_eq hopen, queued, Multiset.cons_bind, add_comm]
        exact congrArg (· + _) (zero_add _).symm

theorem bind_next_eq_zero (h : ∀ j, .job j ∉ r) : r.bind Errand.next = 0 := by
  rw [Multiset.bind_congr, Multiset.bind_zero]
  intro x hx
  cases x with
  | job j => exact (h j hx).elim
  | _ => rfl

/-- Nobody runs what waits for a thread that never started; the call to stop has it dropped. -/
theorem Sound.queued_le_doomed (hd : d.Sound) {p : Post} (hp : d.post = some p)
    (h : p.receiver = .unclaimed) : d.ahead = 0 ∧ d.queued ≤ d.stop.doomed false := by
  obtain ⟨q, r⟩ := d
  cases hp
  obtain ⟨-, hjobs, -⟩ := hd.unstarted h
  have hnone : receivers r = 0 := hd.token.trans (by simp [receiver, h, Receiver.holders])
  have hnext := bind_next_eq_zero hjobs
  refine ⟨?_, ?_⟩
  · rw [ahead_alone hnone, hnext]
  · simp [queued, hnext, Docket.stop, h, doomed, channel, Errand.doomed]

theorem sound_empty : Sound ⟨none, 0⟩ := by
  constructor
  all_goals simp [receiver, joinable, channel, runsOnExit, receivers, Receiver.holders]

end Fates

end Docket

end ManagedHeap
