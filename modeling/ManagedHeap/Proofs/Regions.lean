import ManagedHeap.Proofs.Postures
import ManagedHeap.Proofs.Wakeups

/-!
# Blocking regions

**Input.**  A run, and a thread inside a blocking region in it.

**Algorithm.**  A thread that enters a region is marked as blocked and counts as standing still.
The others ask only those who run, so nothing raises its flag there; the thread itself polls only if
the flag is up.  A poll that parks ends with the thread running, inside of regions as well as
outside.

**Results.**  `World.restsInRegions_after`: in every run a thread inside a region stands still, and
no pause waits for it, unless it came in with its flag up, was parked by a poll inside the region
and let go there.
-/

namespace ManagedHeap

variable {m : Mutator} {o : Option Badge}

theorem Behind.head_ne (h : Behind b tasks) : tasks.head? ≠ some .endRegion := by
  cases h with
  | nil | unblocks | leaves => nofun
  | free hfree =>
    intro hhead
    cases hhead
    cases hfree

theorem Behind.not_ending (h : Behind b tasks) : ¬Ending o tasks := by
  rintro ⟨rest, rfl, -⟩
  exact h.head_ne rfl

/-- The thread that alone makes a call, for calls about the one who makes them. -/
def Operation.own? : Operation → Option ThreadId
  | .poll id | .enterBlocking id | .leaveBlocking id _ | .parked id _ | .detach id => some id
  | _ => none

namespace Mutator

variable {F : Prop} {m m' : Mutator}

/-- A thread stands still, and its flag is up only for the given reason. -/
structure Rests (F : Prop) (m : Mutator) : Prop where
  stopped : m.isStopped = true
  asked : m.pollRequested = true → F

theorem Rests.congr (h : m.Rests F) (hstatus : m'.status = m.status)
    (hpoll : m'.pollRequested = m.pollRequested) : m'.Rests F := by
  refine ⟨?_, by rw [hpoll]; exact h.asked⟩
  have hstopped := h.stopped
  unfold isStopped at hstopped ⊢
  rwa [hstatus]

theorem Rests.requestStop (h : m.Rests F) : m.requestStop.Rests F := by
  rw [requestStop_of_isStopped h.stopped]
  exact h

theorem Rests.withdrawRequest (h : m.Rests F) : m.withdrawRequest.Rests F :=
  ⟨by rw [isStopped_withdrawRequest]; exact h.stopped, nofun⟩

end Mutator

namespace Registry

variable {F : Prop} {r r' : Registry} {thread : Nat} {id target : ThreadId} {op : Operation}
  {p : Progress}

/-- Whether the thread of a number stands still, with its flag up only for the given reason. -/
def Rests (r : Registry) (id : ThreadId) (F : Prop) : Prop := ∀ m, r.get? id = some m → m.Rests F

theorem Rests.update (h : r.Rests id F) (hid : ∀ m, (f m).id = m.id)
    (hf : ∀ m : Mutator, m.Rests F → (f m).Rests F) : (r.update target f).Rests id F := by
  intro m' hm'
  have hg : ∀ m : Mutator, (if m.id = target then f m else m).id = m.id := by
    intro m
    split
    · exact hid m
    · rfl
  obtain ⟨m, hm, rfl⟩ := Option.map_eq_some_iff.mp ((get?_of_map hg rfl).symm.trans hm')
  split
  · exact hf m (h m hm)
  · exact h m hm

theorem Rests.note (h : r.Rests id F) (hf : ∀ m : Mutator, (f m).masked = m.masked) :
    (r.update target f).Rests id F :=
  h.update (fun m => (Mutator.of_masked (hf m)).1) fun m hm =>
    hm.congr (Mutator.of_masked (hf m)).2.1 (Mutator.of_masked (hf m)).2.2.2

/-- **Nobody else makes a thread run that stands still, nor asks it.** -/
theorem Section.rests (h : r.Section thread op r' p) (hop : op.own? ≠ some id) (hid : id < r.nextId)
    (hrests : r.Rests id F) : r'.Rests id F := by
  intro m' hm'
  have hturns := h.turns id
  rw [hm'] at hturns
  generalize hm : r.get? id = o at hturns
  cases hturns with
  | edits _ hedits =>
    have hrest := hrests _ hm
    cases hedits with
    | keeps => exact hrest
    | comesIn | passes | blocks | stays | leaves | goesOn => exact (hop rfl).elim
    | raises => exact Mutator.Rests.requestStop (hrest.congr rfl rfl)
    | lowers | leavesHeld => exact hrest.congr rfl rfl
    | frees => exact Mutator.Rests.withdrawRequest (hrest.congr rfl rfl)
  | asked => exact (hrests _ hm).requestStop
  | released =>
    split
    · exact (hrests _ hm).withdrawRequest
    · exact hrests _ hm
  | comes hnext => exact (Nat.ne_of_lt hid hnext).elim

theorem Rests.park (h : r.Rests id F) : (r.park thread id).Rests id F :=
  h.update (fun _ => rfl) fun _ hm => ⟨rfl, hm.asked⟩

theorem get?_resumeRunning (h : r.mustPark id = false) (hm : r.get? id = some m) :
    ∃ m', (r.update id Mutator.resumeRunning).get? id = some m' ∧ m'.status = .running := by
  refine ⟨_, get?_update (fun _ => Mutator.id_resumeRunning) hm, ?_⟩
  have hcount : ¬0 < m.suspendCount := by
    unfold mustPark at h
    rw [hm] at h
    simpa using (Bool.or_eq_false_iff.mp h).1
  rw [if_pos rfl, Mutator.resumeRunning, if_neg hcount]

theorem Numbered.not_mem_late (h : r.Numbered) (hm : r.get? id = some m)
    (hstopped : m.isStopped = true) : id ∉ r.late := by
  intro hlate
  obtain ⟨k, hk, hid⟩ := List.mem_map.mp hlate
  obtain ⟨hmem, hdelays⟩ := List.mem_filter.mp hk
  have hsame := get?_of_mem h.distinct hmem
  rw [hid] at hsame
  cases hm.symm.trans hsame
  unfold delays at hdelays
  rw [hstopped] at hdelays
  simp at hdelays

end Registry

namespace Crew

variable {F : Prop} {c c' : Crew} {t : Nat} {x y : Actor} {task : Task} {a : Attachment} {b : Badge}

/-- Whether the thread of a number stands still, with its flag up only for the given reason. -/
def Rests (c : Crew) (b : Badge) (F : Prop) : Prop :=
  ∀ r, c.registries[b.engine]? = some r → r.Rests b.id F

def Asked (c : Crew) (b : Badge) : Prop :=
  ∃ m, c.record b.engine b.id = some m ∧ m.pollRequested = true

/-- The task with which a thread enters a region. -/
def entry (b : Badge) : Task := .registry b.engine (.enterBlocking b.id)

/-- A thread inside a region as long as it has not run there: it stands still until it has left, and
it comes in at a poll only for the given reason. -/
structure Settled (c : Crew) (b : Badge) (tasks : List Task) (F : Prop) : Prop where
  rests : tasks.head? ≠ some .endRegion → c.Rests b F
  polls : ∀ {e : Nat} {id : ThreadId} {rest : List Task}, tasks = .registry e (.poll id) :: rest → F
  parks : ∀ {e : Nat} {id : ThreadId} {hold : Hold} {o : Option Badge} {rest : List Task},
    tasks = .registry e (.parked id hold) :: rest → Behind o rest → hold = .any ∧ F

/-- Whether a call is one that only the thread of a number makes. -/
def IsOwn (b : Badge) (task : Task) : Prop :=
  ∃ op, task = .registry b.engine op ∧ op.own? = some b.id

theorem Rests.of_record (h : c.Rests b F) (hm : c.record b.engine b.id = some m) : m.Rests F := by
  obtain ⟨r, hr, hget⟩ := Option.bind_eq_some_iff.mp hm
  exact h r hr m hget

/-- **What is not its own call leaves a thread standing still.** -/
theorem Act.rests (h : Act t x c task c') (hr : c.registries[b.engine]? = some r)
    (hid : b.id < r.nextId) (hown : ¬IsOwn b task) (hrests : c.Rests b F) : c'.Rests b F := by
  obtain ⟨r', hr', halters⟩ := h.exists_registry hr
  intro q hq
  cases hr'.symm.trans hq
  cases halters with
  | nothing => exact hrests r hr
  | call htask hstep =>
    exact (Registry.section_of_step hstep).rests (fun hop => hown ⟨_, htask, hop⟩) hid (hrests r hr)
  | note _ hf => exact (hrests r hr).note hf

theorem badge_of_isOwn (hown : IsOwn b task) (hp : Posture x.badge (task :: rest)) :
    x.badge = some b := by
  obtain ⟨op, rfl, hop⟩ := hown
  cases op with
  | poll | enterBlocking | leaveBlocking | parked | detach =>
    cases hop
    exact hp.1
  | _ => cases hop

section Attachments

/-- Whoever is inside a region after a task, and not about to enter it, was inside before. -/
theorem Act.attachment (h : Act t x c task c') (hx : c.actors[t]? = some x)
    (hy : c'.actors[t]? = some y) (ha : y.attachment = some a) (hin : a.inRegion = true)
    (hhead : y.tasks.head? ≠ some (entry a.badge)) : x.attachment = some a := by
  have hself : ∀ {v : Crew} {f}, v.actors[t]? = some x → (v.modify t f).actors[t]? = some y →
      y = f x := fun hv hy => Option.some.inj (hy.symm.trans (getElem?_modify_self hv))
  cases h with
  | idles htask hgoes =>
    cases hself hx hy
    obtain ⟨-, -, -, hattachment⟩ := hgoes.front
    exact hattachment.symm.trans ha
  | @operates _ _ _ p =>
    cases hself hx hy
    cases p <;> exact ha
  | polls | nests | leaves | joins | quits | finds | waits =>
    cases hself hx hy
    exact ha
  | takes | takesEntry | timesOut | sleeps =>
    cases hself hx hy
    exact ha
  | interrupts =>
    cases hself hx hy
    exact ha
  | breaksOff =>
    cases hself hx hy
    exact ha
  | @blocks a₀ _ _ ha₀ | @enters a₀ _ _ ha₀ =>
    cases hself hx hy
    refine (hhead ?_).elim
    have hbadge : a.badge = a₀.badge := by
      have ha' : (x.setRegion true).attachment = some a := ha
      rw [Actor.setRegion, ha₀] at ha'
      cases ha'
      rfl
    rw [hbadge]
    rfl
  | ends =>
    cases hself hx hy
    obtain ⟨a₀, -, rfl⟩ := Option.map_eq_some_iff.mp ha
    cases hin
  | adopts =>
    cases hself hx hy
    cases ha
    cases hin
  | forgets =>
    cases hself hx hy
    cases ha
  | misses | stays | passes | wakes | enqueues | recordsBlocker | recordsNothing | clearsFlag =>
    cases hx.symm.trans hy
    exact ha
  | @opens i made hired front =>
    have hlonger : (c.actors ++ hired)[t]? = some x := by
      rw [Array.getElem?_append_left (Array.getElem?_eq_some_iff.mp hx).1]
      exact hx
    cases hself hlonger hy
    exact ha

theorem Act.of_endRegion (h : Act t x c .endRegion c') :
    c' = c.modify t (Actor.setRegion false) := by
  cases h with
  | ends => rfl
  | idles htask | polls htask => rcases htask with h | ⟨i, h⟩ <;> cases h

end Attachments

section Staying

variable {r r' : Registry} {tasks rest : List Task} {f : Actor → Actor}

theorem Settled.of_behind (hbehind : Behind o tasks) (h : c.Rests b F) : c.Settled b tasks F := by
  refine ⟨fun _ => h, ?_, ?_⟩
  · rintro e id rest rfl
    cases hbehind with
    | free hfree => cases hfree
  · rintro e id hold o rest rfl
    cases hbehind with
    | free hfree => cases hfree

theorem Settled.of_ending (h : Ending o tasks) : c.Settled b tasks F := by
  obtain ⟨rest, rfl, -⟩ := h
  exact ⟨fun hhead => (hhead rfl).elim, nofun, nofun⟩

theorem rests_operate (hr : c.registries[b.engine]? = some r) (h : r'.Rests b.id F) :
    ((c.modifyRegistry b.engine fun _ => r').modify t f).Rests b F := by
  intro q hq
  cases (getElem?_modifyRegistry_self hr).symm.trans hq
  exact h

theorem record_operate (hr : c.registries[b.engine]? = some r) (hm : r'.get? b.id = some m) :
    ((c.modifyRegistry b.engine fun _ => r').modify t f).record b.engine b.id = some m :=
  Option.bind_eq_some_iff.mpr ⟨r', getElem?_modifyRegistry_self hr, hm⟩

def Runs (c : Crew) (b : Badge) : Prop := ∃ m, c.record b.engine b.id = some m ∧ m.status = .running

/-- A call of its own leaves a thread standing still inside a region, unless it is let go there
after a poll. -/
theorem Settled.own (h : c.Settled b (.registry b.engine op :: x.tasks) F)
    (hr : c.registries[b.engine]? = some r) (hm : r.get? b.id = some m) (hop : op.own? = some b.id)
    (hnot : op ≠ .enterBlocking b.id) (hp : Posture x.badge (.registry b.engine op :: x.tasks))
    (hsec : r.Section t op r' p) :
    ((c.modifyRegistry b.engine fun _ => r').modify t f).Settled b (x.goOn b.engine p).tasks F ∨
      op = .parked b.id .any ∧ F ∧ ((c.modifyRegistry b.engine fun _ => r').modify t f).Runs b ∧
        (x.goOn b.engine p).tasks.head? ≠ some .endRegion := by
  have hrests : r.Rests b.id F := h.rests nofun r hr
  cases hsec with
  | comesIn =>
    cases hop
    refine .inl ⟨fun _ => rests_operate hr hrests.park, nofun, fun htasks _ => ?_⟩
    cases htasks
    exact ⟨rfl, h.polls rfl⟩
  | passes =>
    cases hop
    exact .inl (.of_behind hp.2
      (rests_operate hr (hrests.update (fun _ => rfl) fun _ hm => hm.withdrawRequest)))
  | blocks =>
    cases hop
    exact (hnot rfl).elim
  | stays =>
    cases hop
    refine .inl ⟨fun _ => rests_operate hr hrests.park, nofun, fun htasks hbehind => ?_⟩
    cases htasks
    exact (hbehind.not_ending hp.2).elim
  | leaves => exact .inl (.of_ending hp.2)
  | sleepsOn =>
    refine .inl ⟨fun _ => rests_operate hr hrests, nofun, fun htasks => ?_⟩
    cases htasks
    exact h.parks rfl
  | goesOn hfree =>
    cases hop
    rcases hp.2 with hbehind | hending
    · obtain ⟨rfl, hF⟩ := h.parks rfl hbehind
      obtain ⟨m', hm', hruns⟩ := Registry.get?_resumeRunning hfree hm
      exact .inr ⟨rfl, hF, ⟨m', record_operate hr hm', hruns⟩, hbehind.head_ne⟩
    · exact .inl (.of_ending hending)
  | detaches =>
    cases hop
    obtain ⟨-, tail, htail, -⟩ := hp
    show Settled _ b x.tasks F ∨ _
    rw [htail]
    refine .inl ⟨fun _ => rests_operate hr fun k hk => ?_, nofun, nofun⟩
    cases Registry.get?_filter_self.symm.trans hk
  | misses hmiss => rcases hmiss with rfl | rfl <;> cases hop
  | _ => cases hop

/-- **A task leaves its thread standing still inside a region, unless it is let go there after a
poll.** -/
theorem Settled.act (h : c.Settled b x.tasks F) (hl : c.Lawful)
    (hx : c.actors[t]? = some x) (hb : x.badge = some b) (htasks : x.tasks = task :: rest)
    (hact : Act t { x with tasks := rest } (c.take t rest) task c') (hentry : task ≠ entry b)
    (hend : task ≠ .endRegion) (hy : c'.actors[t]? = some y) (hyb : y.badge = some b) :
    c'.Settled b y.tasks F ∨ task = .registry b.engine (.parked b.id .any) ∧ F ∧ c'.Runs b ∧
    y.tasks.head? ≠ some .endRegion := by
  have hx₀ : (c.take t rest).actors[t]? = some { x with tasks := rest } :=
    getElem?_modify_self hx
  have hp : Posture x.badge (task :: rest) := htasks ▸ hl.posture hx
  by_cases hown : IsOwn b task
  · obtain ⟨op, rfl, hop⟩ := hown
    obtain ⟨r, m, hr, -, hm⟩ := hl.exists_record hx hb (by rw [htasks]; nofun)
    obtain ⟨expired, r', p, hstep, rfl⟩ := hact.of_registry hr
    cases (getElem?_modify_self hx₀).symm.trans hy
    rw [htasks] at h
    have hc : (c.take t rest).Settled b (.registry b.engine op :: rest) F :=
      ⟨h.rests, h.polls, h.parks⟩
    rcases hc.own (x := { x with tasks := rest }) hr hm hop (fun heq => hentry (by rw [heq]; rfl))
      hp (Registry.section_of_step hstep) with hsettled | ⟨rfl, hF, hruns⟩
    · exact .inl hsettled
    · exact .inr ⟨rfl, hF, hruns⟩
  · obtain ⟨r, hr, hlt, -⟩ := hl.known hx hb
    have hrests : c.Rests b F :=
      h.rests (by rw [htasks]; exact fun hhead => hend (Option.some.inj hhead))
    obtain ⟨y', hy', hposture, hleads⟩ := hact.stands hx₀ hp
    cases hy'.symm.trans hy
    rw [hyb] at hposture
    refine .inl ⟨fun _ => hact.rests hr hlt hown hrests, ?_, ?_⟩
    · intro e id tail hnext
      rw [hnext] at hposture hleads
      cases hposture.1
      obtain ⟨m, hm, hflag⟩ := hleads
      exact (hrests.of_record hm).asked hflag
    · intro e id hold o tail hnext _
      rw [hnext] at hposture hleads
      cases hposture.1
      rcases hleads with ⟨rfl, -⟩ | ⟨rfl, -⟩ | rfl <;> exact (hown ⟨_, rfl, rfl⟩).elim

/-- Whoever has entered a region stands still there, with its flag up only if it was up before. -/
theorem settled_of_entry (hl : c.Lawful) (hx : c.actors[t]? = some x) (hb : x.badge = some b)
    (htasks : x.tasks = entry b :: rest)
    (hact : Act t { x with tasks := rest } (c.take t rest) (entry b) c')
    (hy : c'.actors[t]? = some y) : c'.Settled b y.tasks (c.Asked b) := by
  have hp : Posture x.badge (entry b :: rest) := htasks ▸ hl.posture hx
  obtain ⟨r, m, hr, -, hm⟩ := hl.exists_record hx hb (by rw [htasks]; nofun)
  obtain ⟨expired, r', p, hstep, rfl⟩ := hact.of_registry hr
  cases (getElem?_modify_self (getElem?_modify_self hx)).symm.trans hy
  cases hstep
  refine .of_behind hp.2 (rests_operate hr fun k hk => ?_)
  have hblocked : (r.update b.id fun m => { m with status := .blocked }).get? b.id = _ :=
    Registry.get?_update (fun _ => rfl) hm
  rw [if_pos rfl] at hblocked
  cases hblocked.symm.trans hk
  exact ⟨rfl, fun hflag => ⟨m, Option.bind_eq_some_iff.mpr ⟨r, hr, hm⟩, hflag⟩⟩

theorem Settled.of_other (h : c.Settled b y.tasks F) (hl : c.Lawful) (hy : c.actors[u]? = some y)
    (hb : y.badge = some b) (hx : c.actors[t]? = some x) (htasks : x.tasks = task :: rest)
    (hact : Act t { x with tasks := rest } (c.take t rest) task c') (hu : u ≠ t) :
    c'.Settled b y.tasks F := by
  obtain ⟨r, hr, hlt, -⟩ := hl.known hy hb
  refine ⟨fun hhead => hact.rests hr hlt (fun hown => hu ?_) (h.rests hhead), h.polls, h.parks⟩
  exact hl.apart hy hx hb (badge_of_isOwn hown (htasks ▸ hl.posture hx))

end Staying

/-- Whether all registries give each number to one thread. -/
def Numbered (c : Crew) : Prop := ∀ {e : Nat} {r : Registry}, c.registries[e]? = some r → r.Numbered

theorem numbered_of_empty {r : Registry} (h : r.mutators = []) : r.Numbered := by
  have hids : r.ids = [] := congrArg (List.map fun m : Mutator => m.id) h
  exact ⟨hids ▸ List.nodup_nil, by rw [hids]; nofun⟩

theorem Numbered.turn {m : Move} (h : c.Numbered) (hturn : Turn m c c') : c'.Numbered := by
  cases hturn with
  | rests | waits | comes | begins | favours => exact h
  | @acts _ _ t x task rest hx htasks hact =>
    intro e r' hr'
    cases hr : c.registries[e]? with
    | none => exact numbered_of_empty (hact.isFresh_registry hr hr').1
    | some r =>
      obtain ⟨r₁, hr₁, halters⟩ := hact.exists_registry hr
      cases hr₁.symm.trans hr'
      cases halters with
      | nothing => exact h hr
      | call _ hstep => exact (Registry.section_of_step hstep).numbered (h hr)
      | @note id f _ hf =>
        have hids : (r.update id f).ids = r.ids :=
          Registry.ids_update fun m => (Mutator.of_masked (hf m)).1
        exact ⟨hids ▸ (h hr).distinct, by rw [hids]; exact (h hr).issued⟩

/-- What a move does to a thread that is inside a region after it. -/
inductive Dwells (t : Nat) (m : Move) (c c' : Crew) (a : Attachment) (y : Actor) : Prop
  | enters {x : Actor} (hm : m = .step t) (hx : c.actors[t]? = some x) (ha : x.attachment = some a)
      (hhead : x.tasks.head? = some (entry a.badge))
      (h : c'.Settled a.badge y.tasks (c.Asked a.badge)) : Dwells t m c c' a y
  | stays {x : Actor} (hx : c.actors[t]? = some x) (ha : x.attachment = some a)
      (hhead : x.tasks.head? ≠ some (entry a.badge))
      (h : ∀ F, c.Settled a.badge x.tasks F → c'.Settled a.badge y.tasks F) : Dwells t m c c' a y
  /-- A poll inside the region is over, and the thread runs. -/
  | strays {x : Actor} (hm : m = .step t) (hx : c.actors[t]? = some x) (ha : x.attachment = some a)
      (hhead : x.tasks.head? = some (.registry a.engine (.parked a.id .any)))
      (h : ∀ F, c.Settled a.badge x.tasks F →
        c'.Settled a.badge y.tasks F ∨ F ∧ c'.Runs a.badge ∧ y.tasks.head? ≠ some .endRegion) :
      Dwells t m c c' a y

/-- **What a move does to a thread inside a region.**  It has just entered it; or it was there
before and goes on standing still, unless it is let go after a poll. -/
theorem Turn.dwells {m : Move} (hturn : Turn m c c') (hl : c.Lawful) (hy : c'.actors[t]? = some y)
    (ha : y.attachment = some a) (hin : a.inRegion = true)
    (hhead : y.tasks.head? ≠ some (entry a.badge)) : Dwells t m c c' a y := by
  cases hturn with
  | rests | waits => exact .stays hy ha hhead fun _ h => h
  | favours => exact .stays hy ha hhead fun _ h => ⟨h.rests, h.polls, h.parks⟩
  | comes =>
    rw [Array.getElem?_push] at hy
    split at hy
    · cases hy
      cases ha
    · exact .stays hy ha hhead fun _ h => ⟨h.rests, h.polls, h.parks⟩
  | @begins _ u _ _ i x hx hidle =>
    by_cases hu : t = u
    · subst hu
      cases (getElem?_modify_self hx).symm.trans hy
      refine .stays hx ha (by rw [hidle]; nofun) fun _ h => ⟨fun _ => h.rests ?_, nofun, nofun⟩
      rw [hidle]
      nofun
    · rw [getElem?_modify_of_ne hu] at hy
      exact .stays hy ha hhead fun _ h => ⟨h.rests, h.polls, h.parks⟩
  | @acts _ _ u x task rest hx htasks hact =>
    by_cases hu : t = u
    · subst hu
      have hxa : x.attachment = some a := hact.attachment (getElem?_modify_self hx) hy ha hin hhead
      have hb : x.badge = some a.badge := Actor.badge_of_attachment hxa
      have hhead' : x.tasks.head? = some task := by rw [htasks]; rfl
      by_cases hentry : task = entry a.badge
      · subst hentry
        exact .enters rfl hx hxa hhead' (settled_of_entry hl hx hb htasks hact hy)
      · have hend : task ≠ .endRegion := by
          rintro rfl
          cases hact.of_endRegion
          cases (getElem?_modify_self (getElem?_modify_self hx)).symm.trans hy
          obtain ⟨a₀, -, rfl⟩ := Option.map_eq_some_iff.mp ha
          cases hin
        have hstep := fun F (h : c.Settled a.badge x.tasks F) =>
          h.act hl hx hb htasks hact hentry hend hy (Actor.badge_of_attachment ha)
        by_cases hparked : task = .registry a.engine (.parked a.id .any)
        · exact .strays rfl hx hxa (hparked ▸ hhead') fun F h => (hstep F h).imp_right fun hruns =>
            hruns.2
        · refine .stays hx hxa (fun heq => hentry (Option.some.inj (hhead'.symm.trans heq)))
            fun F h => ?_
          exact (hstep F h).resolve_right fun hruns => hparked hruns.1
    · rcases hact.of_other hu hy with hy₀ | ⟨e, rfl⟩
      · exact .stays hy₀ ha hhead fun _ h =>
          h.of_other hl hy₀ (Actor.badge_of_attachment ha) hx htasks hact hu
      · cases ha

end Crew

namespace World

variable {w : World} {t : Nat} {b : Badge}

section Dwelling

variable (s : EngineSpec) (label : String) (moves : List Move)

theorem numbered_after : ((start s label).after moves).crew.Numbered :=
  crew_induction s label (P := fun moves => ((start s label).after moves).crew.Numbered)
    (fun h _ _ hr => Crew.numbered_of_empty (h.registries hr).1) (fun _ _ _ hturn h =>
    h.turn hturn) moves

/-- Whether a thread is inside a blocking region. -/
def Inside (w : World) (t : Nat) (b : Badge) : Prop :=
  ∃ a, w.attachmentOf t = some a ∧ a.badge = b ∧ a.inRegion = true

/-- A thread entered a region, and has been inside ever since. -/
structure Entered (w : World) (t : Nat) (b : Badge) (before later : List Move) : Prop where
  enters : (w.after before).nextTask t = some (.registry b.engine (.enterBlocking b.id))
  inside : ∀ past, past <+: later → (w.after (before ++ .step t :: past)).Inside t b

/-- A thread that entered a region with its flag up was parked by a poll there and let go: it runs
inside the region. -/
structure Strays (w : World) (t : Nat) (b : Badge) (before mid : List Move) : Prop where
  asked : ∃ m, (w.after before).record b.engine b.id = some m ∧ m.pollRequested = true
  parked :
    (w.after (before ++ .step t :: mid)).nextTask t = some (.registry b.engine (.parked b.id .any))
  stays : (w.after (before ++ .step t :: (mid ++ [.step t]))).nextTask t ≠ some .endRegion
  runs : ∃ m, (w.after (before ++ .step t :: (mid ++ [.step t]))).record b.engine b.id = some m ∧
    m.status = .running

/-- Whether a thread has run inside the region in which it is. -/
def Strayed (w : World) (moves : List Move) (t : Nat) (b : Badge) : Prop :=
  ∃ before mid later, moves = before ++ .step t :: (mid ++ .step t :: later) ∧
    w.Entered t b before (mid ++ .step t :: later) ∧ w.Strays t b before mid

theorem inside_of_actor (hx : w.crew.actors[t]? = some x) (ha : x.attachment = some a)
    (hin : a.inRegion = true) : w.Inside t a.badge := ⟨a, (attachmentOf_eq hx).trans ha, rfl, hin⟩

theorem nextTask_eq_head? (hx : w.crew.actors[t]? = some x) : w.nextTask t = x.tasks.head? := by
  rw [getElem?_actors] at hx
  obtain ⟨y, hy, rfl⟩ := Option.map_eq_some_iff.mp hx
  unfold nextTask
  rw [hy]
  rfl

theorem Entered.snoc {before later : List Move} {m : Move} (h : w.Entered t b before later)
    (hin : (w.after (before ++ .step t :: (later ++ [m]))).Inside t b) :
    w.Entered t b before (later ++ [m]) where
  enters := h.enters
  inside past hpast := by
    rcases List.prefix_concat_iff.mp hpast with rfl | hprefix
    · exact hin
    · exact h.inside past hprefix

/-- A thread inside a region entered it, and has stood still since then or has run there. -/
def Dwelt (w : World) (moves : List Move) (t : Nat) (b : Badge) (tasks : List Task) : Prop :=
  (∃ before later, moves = before ++ .step t :: later ∧ w.Entered t b before later ∧
    (w.after moves).crew.Settled b tasks ((w.after before).crew.Asked b)) ∨ w.Strayed moves t b

theorem Strayed.snoc {moves : List Move} {m : Move} (h : w.Strayed moves t b)
    (hin : (w.after (moves ++ [m])).Inside t b) : w.Strayed (moves ++ [m]) t b := by
  obtain ⟨before, mid, later, rfl, hentered, hstrays⟩ := h
  have hlonger : before ++ .step t :: (mid ++ .step t :: later) ++ [m] =
      before ++ .step t :: (mid ++ .step t :: later ++ [m]) := by simp
  rw [hlonger] at hin ⊢
  refine ⟨before, mid, later ++ [m], by simp, ?_, hstrays⟩
  simpa using hentered.snoc hin

/-- **Whoever is inside a region after a run entered it, and has stood still since then or has run
there.** -/
theorem dwelt_after : ∀ {t x a}, ((start s label).after moves).crew.actors[t]? = some x →
      x.attachment = some a → a.inRegion = true → x.tasks.head? ≠ some (Crew.entry a.badge) →
      (start s label).Dwelt moves t a.badge x.tasks := by
  refine crew_induction s label (P := fun moves => ∀ {t x a},
    ((start s label).after moves).crew.actors[t]? = some x → x.attachment = some a →
    a.inRegion = true → x.tasks.head? ≠ some (Crew.entry a.badge) →
    (start s label).Dwelt moves t a.badge x.tasks) ?_ ?_ moves
  · intro hfresh t x a hx ha
    obtain ⟨e, rfl⟩ := hfresh.actors hx
    cases ha
  · intro past m hl hturn ih t y a hy ha hin hhead
    have hinside := inside_of_actor hy ha hin
    cases hturn.dwells hl hy ha hin hhead with
    | enters hm hx hxa hentry hsettled =>
      subst hm
      refine .inl ⟨past, [], rfl, ⟨(nextTask_eq_head? hx).trans hentry, fun front hfront => ?_⟩,
        hsettled⟩
      cases List.prefix_nil.mp hfront
      exact hinside
    | stays hx hxa hnot hstay =>
      rcases ih hx hxa hin hnot with ⟨before, later, rfl, hentered, hsettled⟩ | hstrayed
      · have hlonger : before ++ .step t :: later ++ [m] = before ++ .step t :: (later ++ [m]) := by
          simp
        refine .inl ⟨before, later ++ [m], hlonger, hentered.snoc (hlonger ▸ hinside),
          hstay _ hsettled⟩
      · exact .inr (hstrayed.snoc hinside)
    | @strays x hm hx hxa hparked hstray =>
      subst hm
      have hnot : x.tasks.head? ≠ some (Crew.entry a.badge) := by
        rw [hparked]
        unfold Crew.entry
        nofun
      rcases ih hx hxa hin hnot with ⟨before, later, rfl, hentered, hsettled⟩ | hstrayed
      · have hlonger : before ++ .step t :: later ++ [.step t] = before ++ .step t ::
            (later ++ [.step t]) := by simp
        rw [hlonger] at hinside hy hstray ⊢
        rcases hstray _ hsettled with hsettled' | ⟨⟨m, hm, hflag⟩, ⟨k, hk, hruns⟩, hend⟩
        · exact .inl ⟨before, later ++ [.step t], rfl, hentered.snoc hinside, hsettled'⟩
        · refine .inr ⟨before, later, [], rfl, hentered.snoc hinside, ?_, ?_, ?_, ?_⟩
          · exact ⟨m.masked, by rw [record_eq, hm]; rfl, hflag⟩
          · exact (nextTask_eq_head? hx).trans hparked
          · rw [nextTask_eq_head? hy]
            exact hend
          · exact ⟨k.masked, by rw [record_eq, hk]; rfl, hruns⟩
      · exact .inr (hstrayed.snoc hinside)

theorem runs_of_parked (hl : w.crew.Lawful) (hin : w.Inside t b)
    (hnext : w.nextTask t = some (.registry b.engine (.parked b.id .any))) (h : w.step t = some w')
    (hgone : w'.nextTask t ≠ some (.registry b.engine (.parked b.id .any))) :
    w'.Inside t b ∧ ∃ m, w'.record b.engine b.id = some m ∧ m.status = .running := by
  obtain ⟨x, task, rest, hx, htasks, hact⟩ := act_step h
  cases hnext.symm.trans (nextTask_of_actor hx htasks)
  obtain ⟨a, ha, rfl, hregion⟩ := hin
  rw [attachmentOf_eq hx] at ha
  obtain ⟨r, m, hr, -, hm⟩ :=
    hl.exists_record hx (Actor.badge_of_attachment ha) (by rw [htasks]; nofun)
  obtain ⟨expired, r', p, hstep, hc'⟩ := hact.of_registry hr
  have hx' : w'.crew.actors[t]? = some (Actor.goOn a.engine p { x with tasks := rest }) := by
    rw [hc']
    exact Crew.getElem?_modify_self (Crew.getElem?_modify_self hx)
  cases Registry.section_of_step hstep with
  | sleepsOn => exact (hgone (nextTask_of_actor hx' rfl)).elim
  | goesOn hfree =>
    obtain ⟨m', hm', hruns⟩ := Registry.get?_resumeRunning hfree hm
    refine ⟨inside_of_actor hx' ha hregion, m'.masked, ?_, hruns⟩
    have hrecord : w'.crew.record a.badge.engine a.badge.id = some m' := by
      rw [hc']
      exact Crew.record_operate hr hm'
    rw [record_eq, hrecord]
    rfl
  | misses hop => rcases hop with hop | hop <;> cases hop

/-- Threads stand still inside blocking regions, but for one gap. -/
structure RestsInRegions (w : World) (moves : List Move) : Prop where
  /-- From entering a region until leaving it a thread is blocked or suspended and no pause waits
  for it, unless it was asked to stop before it entered, and was parked and let go inside. -/
  rests : ∀ t b, (w.after moves).Inside t b →
    (w.after moves).nextTask t ≠ some (.registry b.engine (.enterBlocking b.id)) →
    (w.after moves).nextTask t ≠ some .endRegion → (w.after moves).nextTask t ≠ some .forget →
    (∃ x m, (w.after moves).engines[b.engine]? = some x ∧ x.registry.get? b.id = some m ∧
      (m.status = .suspended ∨ m.status = .blocked) ∧ b.id ∉ x.registry.late) ∨ w.Strayed moves t b
  /-- Whoever is let go by a poll inside a region runs there. -/
  strays : ∀ t b w', (w.after moves).Inside t b → (w.after moves).nextTask t =
      some (.registry b.engine (.parked b.id .any)) → (w.after moves).step t = some w' →
    w'.nextTask t ≠ some (.registry b.engine (.parked b.id .any)) →
    w'.Inside t b ∧ ∃ m, w'.record b.engine b.id = some m ∧ m.status = .running

/-- **A thread inside a blocking region stands still, unless it was let go there.**  In every run, a
thread that has entered a region and not left it is blocked or suspended, and no pause waits for it;
or its flag was up when it entered, and a poll inside the region has parked it and let it go.  Every
such poll leaves it running inside the region. -/
theorem restsInRegions_after (s : EngineSpec) (label : String) (moves : List Move) :
    (start s label).RestsInRegions moves := by
  have hl := crew_lawful_after s label moves
  refine ⟨fun t b hin hentry hend hforget => ?_, fun t b w' => runs_of_parked hl⟩
  obtain ⟨a, ha, rfl, hregion⟩ := hin
  cases hx : ((start s label).after moves).crew.actors[t]? with
  | none =>
    rw [getElem?_actors, Option.map_eq_none_iff] at hx
    unfold attachmentOf at ha
    rw [hx] at ha
    cases ha
  | some x =>
    rw [attachmentOf_eq hx] at ha
    rw [nextTask_eq_head? hx] at hentry hend hforget
    rcases dwelt_after s label moves hx ha hregion hentry with ⟨before, later, -, -, hsettled⟩ |
      hstrayed
    · left
      obtain ⟨r, m, hr, -, hm⟩ := hl.exists_record hx (Actor.badge_of_attachment ha) hforget
      have hrests := hsettled.rests hend r hr m hm
      have hlate := (numbered_after s label moves hr).not_mem_late hm hrests.stopped
      rw [getElem?_registries_crew] at hr
      obtain ⟨e, he, rfl⟩ := Option.map_eq_some_iff.mp hr
      exact ⟨e, m, he, hm, Mutator.isStopped_iff.mp hrests.stopped, hlate⟩
    · exact .inr hstrayed

/-- A thread is asked to stop, enters a blocking region, polls there, and is let go. -/
def strayMoves : List Move :=
  [.call "worker", .call "main"] ++ given 0 0 (.attach "gc" "worker") 8 ++
    given 1 1 (.requestSuspend "gc" 1 1) 8 ++ given 0 2 .enterBlocking 8 ++
    given 0 3 (.checkSafepoint "gc") 8 ++ given 1 4 (.requestResume "gc" 1) 8 ++
    List.replicate 8 (.step 0)

/-- Nobody has anything to do any more, and the first thread runs inside its region: a pause would
wait for it. -/
theorem runs_in_region :
    ((start standardEngine "gc").after strayMoves).attachmentOf 0 = some ⟨0, 1, false, true⟩ ∧
    ((start standardEngine "gc").after strayMoves).nextTask 0 = none ∧
    ((start standardEngine "gc").after strayMoves).record 0 1 = some { id := 1, name := "worker" } ∧
    (((start standardEngine "gc").after strayMoves).engines[0]?).map (·.registry.late) =
      some [1] := by
  refine ⟨?_, ?_, ?_, ?_⟩ <;> decide +kernel

end Dwelling

end World

end ManagedHeap
