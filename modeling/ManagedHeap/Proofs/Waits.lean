import ManagedHeap.Proofs.Postures
import ManagedHeap.Proofs.Wakeups

/-!
# Waiting on queues

**Input.**  A run, and the threads that wait for entries of a queue in it.

**Algorithm.**  A thread records the queue, looks, and sleeps if there is no entry and nobody has
interrupted it.  An entry wakes one sleeper, which takes some entry at its next look unless others
have taken all of them.  An interrupt sets the flag, reads the record, and wakes everybody on that
queue.

**Results.**  `World.keepsWatch_after`: while somebody sleeps on a queue, there are at least as many
threads that were woken and have not looked since as there are entries; a sleeper whose flag is set
is about to be woken; and a flag is lowered by the look that reports the interrupt, or by its own
thread's asking for it, and by nothing else.
-/

namespace ManagedHeap

/-- What interrupts leave in the record of a thread, and what they look for there. -/
structure Signal where
  interrupted : Bool
  /-- The queue on which the thread waits. -/
  blocker : Option Nat

namespace Mutator

/-- What interrupts leave in a record, and what they look for there. -/
def signal (m : Mutator) : Signal := ⟨m.interrupted, m.blocker⟩

variable {m : Mutator}

theorem signal_requestStop : m.requestStop.signal = m.signal := by
  unfold requestStop
  split <;> rfl

theorem signal_resumeRunning : m.resumeRunning.signal = m.signal := by
  unfold resumeRunning
  split
  · exact signal_requestStop
  · rfl

end Mutator

namespace Registry

variable {r r' : Registry} {thread : Nat} {id target : ThreadId} {op : Operation} {p : Progress}

/-- What interrupts leave in the record of a thread, and what they look for there. -/
def signal (r : Registry) (target : ThreadId) : Option Signal := (r.get? target).map Mutator.signal

theorem signal_note {f : Mutator → Mutator} {g : Signal → Signal}
    (hf : ∀ m, (f m).id = m.id ∧ (f m).signal = g m.signal) :
    (r.update id f).signal target = if target = id then (r.signal target).map g
    else r.signal target := by
  unfold signal
  cases hm : r.get? target with
  | none =>
    have hnone : (r.update id f).get? target = none := by
      rw [get?_of_map (fun m => ?_) rfl, hm, Option.map_none]
      split
      · exact (hf m).1
      · rfl
    rw [hnone]
    split <;> rfl
  | some m =>
    rw [get?_update (fun m => (hf m).1) hm]
    split
    · exact congrArg some (hf m).2
    · rfl

theorem signal_waitOn {q : Option Nat} :
    (r.waitOn id q).signal id = (r.signal id).map fun s => { s with blocker := q } :=
  (signal_note (f := fun m => { m with blocker := q }) fun _ => ⟨rfl, rfl⟩).trans (if_pos rfl)

theorem signal_clearInterrupt :
    (r.clearInterrupt id).signal id = (r.signal id).map fun s => { s with interrupted := false } :=
  (signal_note (f := fun m => { m with interrupted := false }) fun _ =>
    ⟨rfl, rfl⟩).trans (if_pos rfl)

theorem Section.signal (h : r.Section thread op r' p) (target : ThreadId) :
    r'.signal target = r.signal target ∨ op = .detach target ∧ r'.signal target = none ∨
    (∃ name, op = .attach name) ∧ r.signal target = none ∧
    r'.signal target = some ⟨false, none⟩ := by
  have hturns := h.turns target
  unfold Registry.signal
  generalize r.get? target = o at hturns ⊢
  generalize r'.get? target = o' at hturns ⊢
  cases hturns with
  | edits _ hedits =>
    refine .inl (congrArg some ?_)
    cases hedits with
    | leaves | goesOn => exact Mutator.signal_resumeRunning
    | raises => exact Mutator.signal_requestStop
    | _ => rfl
  | asked => exact .inl (congrArg some Mutator.signal_requestStop)
  | released => exact .inl (congrArg some (by split <;> rfl))
  | comes =>
    refine .inr (.inr ⟨⟨_, rfl⟩, rfl, congrArg some ?_⟩)
    split
    · exact Mutator.signal_requestStop
    · rfl
  | goes => exact .inr (.inl ⟨rfl, rfl⟩)
  | absent => exact .inl rfl

end Registry

namespace Crew

variable {c c' : Crew} {t e q : Nat} {id : ThreadId} {x : Actor} {task : Task} {b : Badge}
  {s : Signal} {k : Nat}

/-- What interrupts leave in the record of a thread, and what they look for there. -/
def signal (c : Crew) (e : Nat) (id : ThreadId) : Option Signal :=
  (c.registries[e]?).bind (·.signal id)

theorem signal_eq : c.signal e id = (c.record e id).map Mutator.signal := by
  unfold signal record
  cases c.registries[e]? <;> rfl

theorem signal_of_registry {r : Registry} (hr : c.registries[e]? = some r) :
    c.signal e id = r.signal id := by
  rw [signal, hr]
  rfl

theorem isInterrupted_eq_signal (hb : x.badge = some b) :
    c.isInterrupted x = ((c.signal b.engine b.id).map Signal.interrupted).getD false := by
  obtain ⟨a, ha, rfl⟩ := Option.map_eq_some_iff.mp hb
  unfold isInterrupted
  rw [ha, signal_eq]
  dsimp only [Attachment.badge]
  cases c.record a.engine a.id <;> rfl

theorem isInterrupted_of_badge (hb : x.badge = some b) (hs : c.signal b.engine b.id = some s) :
    c.isInterrupted x = s.interrupted := by
  rw [isInterrupted_eq_signal hb, hs]
  rfl

theorem signal_modifyRegistry {f : Registry → Registry} : (c.modifyRegistry k f).signal e id =
      if k = e then (c.registries[e]?).bind fun r => (f r).signal id else c.signal e id := by
  unfold signal modifyRegistry
  rw [Array.getElem?_modify]
  split
  · cases c.registries[e]? <;> rfl
  · rfl

theorem isInterrupted_clear {a : Attachment} (ha : x.attachment = some a) :
    (c.modifyRegistry a.engine (·.clearInterrupt a.id)).isInterrupted x = false := by
  rw [isInterrupted_eq_signal (Actor.badge_of_attachment ha), signal_modifyRegistry, if_pos rfl]
  cases c.registries[a.engine]? with
  | none => rfl
  | some r =>
    rw [Option.bind_some, Registry.signal_clearInterrupt]
    cases r.signal a.id <;> rfl

section Signals

/-- What a task of a thread may do to what is in the record of some thread. -/
inductive Resignals (t : Nat) (x : Actor) (c c' : Crew) (e : Nat) (id : ThreadId) :
    Task → Option Signal → Option Signal → Prop
  | keeps {task : Task} {s : Option Signal} : Resignals t x c c' e id task s s
  | raises {s : Signal} {x' : Actor} (hx' : c'.actors[t]? = some x')
      (hnext : x'.tasks = .wakeBlocked e id :: x.tasks) :
      Resignals t x c c' e id (.interrupt e id) (some s) (some { s with interrupted := true })
  | records {q : Option Nat} {s : Signal} (hb : x.badge = some ⟨e, id⟩) :
      Resignals t x c c' e id (.setBlocker q) (some s) (some { s with blocker := q })
  | breaksOff {q : Nat} {ms : Option Nat} {s : Signal}
      (hb : x.badge = some ⟨e, id⟩) (hq : (c.stand q).entries = [])
      (hs : s.interrupted = true) (hx' : c'.actors[t]? = some (x.answer (.failed .interrupted))) :
      Resignals t x c c' e id (.awaitEntry q ms) (some s) (some { s with interrupted := false })
  | takes {s : Signal} (hb : x.badge = some ⟨e, id⟩) : Resignals t x c c' e id
      (.perform .takeInterrupt) (some s) (some { s with interrupted := false })
  | leaves {s : Signal} : Resignals t x c c' e id (.registry e (.detach id)) (some s) none
  | comes {name : String} :
      Resignals t x c c' e id (.registry e (.attach name)) none (some ⟨false, none⟩)

theorem resignals_note {target : ThreadId} {f : Mutator → Mutator} {g : Signal → Signal}
    (hf : ∀ m, (f m).id = m.id ∧ (f m).signal = g m.signal)
    (h : ∀ s, c.signal k target = some s → Resignals t x c c' k target task (some s) (some (g s))) :
    Resignals t x c c' e id task (c.signal e id)
    ((c.modifyRegistry k (·.update target f)).signal e id) := by
  rw [signal_modifyRegistry]
  by_cases hk : k = e
  · subst hk
    rw [if_pos rfl]
    cases hr : c.registries[k]? with
    | none =>
      rw [signal, hr]
      exact .keeps
    | some r =>
      rw [signal_of_registry hr, Option.bind_some, Registry.signal_note hf]
      by_cases hid : id = target
      · subst hid
        rw [if_pos rfl]
        cases hs : r.signal id with
        | none => exact .keeps
        | some s => exact h s ((signal_of_registry hr).trans hs)
      · rw [if_neg hid]
        exact .keeps
  · rw [if_neg hk]
    exact .keeps

/-- **A flag is set by interrupts, and cleared by a wait that they break off or by the thread's
asking.** -/
theorem Act.resignals (h : Act t x c task c') (hx : c.actors[t]? = some x) (e : Nat)
    (id : ThreadId) : Resignals t x c c' e id task (c.signal e id) (c'.signal e id) := by
  cases h with
  | @operates k r r' p op expired hr hstep =>
    show Resignals t x c _ e id _ (c.signal e id) ((c.modifyRegistry k fun _ => r').signal e id)
    rw [signal_modifyRegistry]
    by_cases hk : k = e
    · subst hk
      rw [if_pos rfl, hr, Option.bind_some, signal_of_registry hr]
      rcases (Registry.section_of_step hstep).signal id with hsame | ⟨rfl, hnone⟩ |
        ⟨⟨name, rfl⟩, hnone, hnew⟩
      · rw [hsame]
        exact .keeps
      · rw [hnone]
        cases r.signal id with
        | none => exact .keeps
        | some s => exact .leaves
      · rw [hnone, hnew]
        exact .comes
    · rw [if_neg hk]
      exact .keeps
  | @interrupts k target m hm =>
    exact resignals_note (fun _ => ⟨rfl, rfl⟩) fun s _ =>
      .raises (getElem?_modify_self hx) rfl
  | @recordsBlocker a q ha =>
    exact resignals_note (fun _ => ⟨rfl, rfl⟩) fun s _ =>
      .records (Actor.badge_of_attachment ha)
  | @breaksOff q a ms hq ha hflag =>
    refine resignals_note (g := fun s => { s with interrupted := false }) (fun _ =>
      ⟨rfl, rfl⟩) fun s hs => ?_
    have hb := Actor.badge_of_attachment ha
    refine .breaksOff hb hq ?_ (getElem?_modify_self hx)
    rw [← isInterrupted_of_badge hb hs]
    exact hflag
  | @clearsFlag a ha =>
    exact resignals_note (fun _ => ⟨rfl, rfl⟩) fun s _ =>
      .takes (Actor.badge_of_attachment ha)
  | @opens i made hired front hmade =>
    -- a new registry has no records
    have hsame : Option.bind (c.registries ++ made)[e]? (·.signal id) = c.signal e id := by
      unfold signal
      rcases Nat.lt_or_ge e c.registries.size with hlt | hge
      · rw [Array.getElem?_append_left hlt]
      · rw [Array.getElem?_append_right hge, Array.getElem?_eq_none hge]
        cases hr : made[e - c.registries.size]? with
        | none => rfl
        | some r =>
          obtain ⟨ms, rfl⟩ := hmade r (Array.mem_of_getElem? hr)
          rfl
    show Resignals t x c _ e id _ (c.signal e id)
      (Option.bind (c.registries ++ made)[e]? (·.signal id))
    rw [hsame]
    exact .keeps
  | _ => exact .keeps

end Signals

section Queues

/-- What a task of a thread may do to a queue. -/
inductive Handles (t : Nat) (x : Actor) (c c' : Crew) (q : Nat) (s : Stand) : Task → Stand → Prop
  | nothing {task : Task} (htask : ∀ ms, task ≠ .awaitEntry q ms) (hwake : task ≠ .wakeQueue q) :
      Handles t x c c' q s task s
  | wakes : Handles t x c c' q s (.wakeQueue q) s.wakeAll
  | enqueues {h : Handle} : Handles t x c c' q s (.pushQueue q h) (s.push h)
  | takes {h : Handle} {rest : List Handle} (hq : s.entries = h :: rest) :
      Handles t x c c' q s (.pollQueue q) { s with entries := rest }
  | takesEntry {ms : Option Nat} {h : Handle} {rest : List Handle} (hq : s.entries = h :: rest) :
      Handles t x c c' q s (.awaitEntry q ms) { s.wake t with entries := rest }
  | givesUp {ms : Option Nat}
      (hq : s.entries = []) : Handles t x c c' q s (.awaitEntry q ms) (s.wake t)
  | sleeps {ms : Option Nat} (hq : s.entries = []) (hflag : c.isInterrupted x = false)
      (hx' : c'.actors[t]? = some (x.push [.awaitEntry q ms])) :
      Handles t x c c' q s (.awaitEntry q ms) ((s.wake t).sleep t)

theorem handles_modifyStand {f : Stand → Stand} (htask : q ≠ k → ∀ ms, task ≠ .awaitEntry q ms)
    (hwake : q ≠ k → task ≠ .wakeQueue q)
    (h : Handles t x c c' k (c.stand k) task (f (c.stand k))) :
    Handles t x c c' q (c.stand q) task ((c.modifyStand k f).stand q) := by
  show Handles t x c c' q (c.stand q) task (if q = k then f (c.stand q) else c.stand q)
  by_cases hk : q = k
  · subst hk
    rwa [if_pos rfl]
  · rw [if_neg hk]
    exact .nothing (htask hk) (hwake hk)

theorem Act.handles (h : Act t x c task c') (hx : c.actors[t]? = some x) (q : Nat) :
    Handles t x c c' q (c.stand q) task (c'.stand q) := by
  have hlook : ∀ {k ms}, q ≠ k → ∀ ms', Task.awaitEntry k ms ≠ .awaitEntry q ms' := by
    rintro k ms hk ms' hms
    cases hms
    exact hk rfl
  cases h with
  | idles htask | polls htask =>
    refine .nothing ?_ ?_
    · rintro ms rfl
      rcases htask with h | ⟨i, h⟩ <;> cases h
    · rintro rfl
      rcases htask with h | ⟨i, h⟩ <;> cases h
  | @wakes k =>
    refine handles_modifyStand (fun _ => nofun) (fun hk hw => ?_) .wakes
    cases hw
    exact hk rfl
  | @enqueues k h =>
    exact handles_modifyStand (fun _ => nofun) (fun _ => nofun) .enqueues
  | @takes k h rest hq =>
    exact handles_modifyStand (f := fun s => { s with entries := rest }) (fun _ => nofun) (fun _ =>
      nofun) (.takes hq)
  | @takesEntry k h rest ms hq =>
    exact handles_modifyStand (f := fun s => { s.wake t with entries := rest }) hlook (fun _ =>
      nofun) (.takesEntry hq)
  | @breaksOff k a ms hq | @timesOut k ms hq =>
    exact handles_modifyStand hlook (fun _ => nofun) (.givesUp hq)
  | @sleeps k ms hq hflag =>
    exact handles_modifyStand (f := fun s => (s.wake t).sleep t) hlook (fun _ => nofun)
      (.sleeps hq hflag (getElem?_modify_self hx))
  | _ => exact .nothing nofun nofun

variable {u : Nat} {s s' : Stand}

/-- Nobody falls asleep but the thread that looks, and nobody that looks stays asleep. -/
theorem Handles.mem_asleep (h : Handles t x c c' q s task s') (hu : u ∈ s'.asleep) :
    u ∈ s.asleep ∧ ((∃ ms, task = .awaitEntry q ms) → u ≠ t) ∧ task ≠ .wakeQueue q ∨
      u = t ∧ ∃ ms, task = .awaitEntry q ms ∧ c.isInterrupted x = false ∧
        c'.actors[t]? = some (x.push [.awaitEntry q ms]) := by
  have hwake : u ∈ (s.wake t).asleep → u ∈ s.asleep ∧ u ≠ t := fun h => by
    simpa [Stand.wake] using h
  cases h with
  | nothing htask hw => exact .inl ⟨hu, fun ⟨ms, hms⟩ => (htask ms hms).elim, hw⟩
  | wakes => cases hu
  | enqueues => exact .inl ⟨List.mem_of_mem_drop hu, nofun, nofun⟩
  | takes => exact .inl ⟨hu, nofun, nofun⟩
  | takesEntry | givesUp => exact .inl ⟨(hwake hu).1, fun _ => (hwake hu).2, nofun⟩
  | @sleeps ms hq hflag hx' =>
    rcases List.mem_append.mp hu with hold | hnew
    · exact .inl ⟨(hwake hold).1, fun _ => (hwake hold).2, nofun⟩
    · exact .inr ⟨List.mem_singleton.mp hnew, ms, rfl, hflag, hx'⟩

theorem Handles.nodup (h : Handles t x c c' q s task s') (hs : s.asleep.Nodup) :
    s'.asleep.Nodup := by
  cases h with
  | nothing | takes => exact hs
  | wakes => exact .nil
  | enqueues => exact hs.sublist (List.drop_sublist 1 _)
  | takesEntry | givesUp => exact hs.filter _
  | sleeps =>
    refine List.Nodup.append (hs.filter _) (List.nodup_singleton t) ?_
    simp [Stand.wake]

end Queues

section Watch

variable {rest : List Task}

/-- Somebody has set the flag of a thread and is about to read on which queue it waits, or to wake
that queue. -/
def Telling (c : Crew) (b : Badge) (q : Nat) : Prop :=
  ∃ (v : Nat) (z : Actor) (rest : List Task), c.actors[v]? = some z ∧
    (z.tasks = .wakeBlocked b.engine b.id :: rest ∨ z.tasks = .wakeQueue q :: rest)

/-- Whether a thread has to look at a queue next. -/
def Looks (c : Crew) (u q : Nat) : Prop :=
  ∃ (y : Actor) (ms : Option Nat) (rest : List Task), c.actors[u]? = some y ∧
    y.tasks = .awaitEntry q ms :: rest

/-- Sleepers wait for entries of their queue, have said so in their records, and are told of
interrupts. -/
structure Watchful (c : Crew) : Prop where
  asleep : ∀ {q u : Nat}, u ∈ (c.stand q).asleep → c.Looks u q
  nodup : ∀ q, (c.stand q).asleep.Nodup
  recorded : ∀ {q u : Nat} {y : Actor} {b : Badge} {ms : Option Nat} {rest : List Task},
    c.actors[u]? = some y → y.tasks = .awaitEntry q ms :: rest → y.badge = some b →
    ∃ s, c.signal b.engine b.id = some s ∧ s.blocker = some q
  told : ∀ {q u : Nat} {y : Actor} {b : Badge} {s : Signal}, u ∈ (c.stand q).asleep →
    c.actors[u]? = some y →
    y.badge = some b → c.signal b.engine b.id = some s → s.interrupted = true → c.Telling b q

theorem IsFresh.watchful (h : c.IsFresh) : c.Watchful where
  asleep hu := by
    rw [h.stand] at hu
    cases hu
  nodup q := by
    rw [h.stand]
    exact .nil
  recorded hy htasks := by
    obtain ⟨e, rfl⟩ := h.actors hy
    cases htasks
  told hu := by
    rw [h.stand] at hu
    cases hu

theorem Resignals.of_ne {s' : Option Signal} (h : Resignals t x c c' e id task (some s) s')
    (hne : x.badge ≠ some ⟨e, id⟩) (hp : Posture x.badge (task :: rest)) :
    s' = some s ∨ s' = some { s with interrupted := true } ∧
      ∃ x', c'.actors[t]? = some x' ∧ x'.tasks = .wakeBlocked e id :: x.tasks := by
  cases h with
  | keeps => exact .inl rfl
  | raises hx' hnext => exact .inr ⟨rfl, _, hx', hnext⟩
  | records hb | breaksOff hb | takes hb => exact (hne hb).elim
  | leaves => exact (hne hp.1).elim

theorem Act.of_wakeBlocked (h : Act t x c (.wakeBlocked e id) c') (hx : c.actors[t]? = some x)
    (hs : c.signal e id = some s) (hq : s.blocker = some q) :
    ∃ x', c'.actors[t]? = some x' ∧ x'.tasks = .wakeQueue q :: x.tasks := by
  obtain ⟨m, hm, rfl⟩ := Option.map_eq_some_iff.mp (signal_eq.symm.trans hs)
  have hblocker : (c.record e id).bind (·.blocker) = some q := by
    rw [hm]
    exact hq
  cases h with
  | finds hq' =>
    cases hblocker.symm.trans hq'
    exact ⟨_, getElem?_modify_self hx, rfl⟩
  | passes hq' => cases hblocker.symm.trans hq'
  | idles htask | polls htask => rcases htask with h | ⟨i, h⟩ <;> cases h

theorem Lawful.exists_signal (h : c.Lawful) (hx : c.actors[t]? = some x) (hb : x.badge = some b)
    (hnext : x.tasks.head? ≠ some .forget) : ∃ s, c.signal b.engine b.id = some s := by
  obtain ⟨r, m, hr, -, hm⟩ := h.exists_record hx hb hnext
  exact ⟨m.signal, by rw [signal_of_registry hr, Registry.signal, hm]; rfl⟩

theorem Act.of_setBlocker {q : Option Nat} (h : Act t x c (.setBlocker q) c') :
    c'.actors = c.actors ∧ ∀ {b s}, x.badge = some b → c.signal b.engine b.id = some s →
      c'.signal b.engine b.id = some { s with blocker := q } := by
  cases h with
  | @recordsBlocker a _ ha =>
    refine ⟨rfl, fun hb hs => ?_⟩
    cases (Actor.badge_of_attachment ha).symm.trans hb
    obtain ⟨r, hr, hs⟩ := Option.bind_eq_some_iff.mp hs
    rw [signal_modifyRegistry, if_pos rfl, hr, Option.bind_some]
    rw [Registry.signal_waitOn, hs]
    rfl
  | recordsNothing ha =>
    refine ⟨rfl, fun hb _ => ?_⟩
    rw [Actor.badge, ha] at hb
    cases hb
  | idles htask | polls htask => rcases htask with h | ⟨i, h⟩ <;> cases h

theorem Act.of_awaitEntry {x' : Actor} {ms : Option Nat} (h : Act t x c (.awaitEntry q ms) c')
    (hx : c.actors[t]? = some x) (hx' : c'.actors[t]? = some x')
    (hrest : x.tasks.head? = some (.setBlocker none))
    (hnext : x'.tasks = .awaitEntry q ms :: rest) :
    x'.badge = x.badge ∧ c'.registries = c.registries := by
  cases h with
  | sleeps =>
    cases (getElem?_modify_self hx).symm.trans hx'
    exact ⟨rfl, rfl⟩
  | takesEntry =>
    cases (getElem?_modify_self hx).symm.trans hx'
    cases hnext
  | breaksOff | timesOut =>
    cases (getElem?_modify_self hx).symm.trans hx'
    rw [show x.tasks = _ from hnext] at hrest
    cases hrest
  | idles htask | polls htask => rcases htask with h | ⟨i, h⟩ <;> cases h

/-- **A task leaves sleepers recorded, and tells them of interrupts.** -/
theorem Watchful.act (h : c.Watchful) (hl : c.Lawful)
    (hx : c.actors[t]? = some x) (htasks : x.tasks = task :: rest)
    (hact : Act t { x with tasks := rest } (c.take t rest) task c') : c'.Watchful := by
  have hx₀ : (c.take t rest).actors[t]? = some { x with tasks := rest } :=
    getElem?_modify_self hx
  have hp : Posture x.badge (task :: rest) := htasks ▸ hl.posture hx
  obtain ⟨x', hx', hstands⟩ := hact.stands hx₀ hp
  have hhandles := fun q => hact.handles hx₀ q
  have hsignals := fun e id => hact.resignals hx₀ e id
  have hapart : ∀ {u y b}, u ≠ t → c.actors[u]? = some y → y.badge = some b →
      x.badge ≠ some b := fun hu hy hb hb' => hu (hl.apart hy hx hb hb')
  refine ⟨?_, fun q => (hhandles q).nodup (h.nodup q), ?_, ?_⟩
  · intro q u hu
    rcases (hhandles q).mem_asleep hu with ⟨hold, hlook, -⟩ | ⟨rfl, ms, -, -, hself⟩
    · obtain ⟨y, ms, tail, hy, hnext⟩ := h.asleep hold
      have hut : u ≠ t := by
        rintro rfl
        cases hx.symm.trans hy
        exact hlook ⟨ms, (List.cons.inj (htasks.symm.trans hnext)).1⟩ rfl
      exact ⟨y, ms, tail, hact.getElem?_of_other hut hy, hnext⟩
    · exact ⟨_, ms, rest, hself, rfl⟩
  · intro q u y b ms tail hy hnext hb
    by_cases hut : u = t
    · subst hut
      cases hx'.symm.trans hy
      have hleads := hstands.leads
      rw [hnext] at hleads
      rcases hleads with rfl | rfl
      · obtain ⟨hactors, hrecorded⟩ := hact.of_setBlocker
        rw [hactors] at hx'
        cases hx₀.symm.trans hx'
        obtain ⟨s, hs⟩ := hl.exists_signal hx hb (by rw [htasks]; nofun)
        exact ⟨_, hrecorded hb hs, rfl⟩
      · obtain ⟨tail', rfl, -⟩ := hp
        obtain ⟨hbadge, hregistries⟩ := hact.of_awaitEntry hx₀ hx' rfl hnext
        obtain ⟨s, hs, hq⟩ := h.recorded hx htasks (hbadge.symm.trans hb)
        refine ⟨s, ?_, hq⟩
        rw [signal, hregistries]
        exact hs
    · rcases hact.of_other hut hy with hold | ⟨e, rfl⟩
      · obtain ⟨s, hs, hq⟩ := h.recorded hold hnext hb
        have hsignal := hsignals b.engine b.id
        rw [show (c.take t rest).signal b.engine b.id = some s from hs] at hsignal
        rcases hsignal.of_ne (hapart hut hold hb) hp with hsame | ⟨hraised, -⟩
        · exact ⟨s, hsame, hq⟩
        · exact ⟨_, hraised, hq⟩
      · cases hnext
  · intro q u y b s hu hy hb hs hflag
    rcases (hhandles q).mem_asleep hu with ⟨hold, hlook, hwake⟩ | ⟨rfl, ms, rfl, hdown, hself⟩
    · obtain ⟨y₀, ms, tail, hy₀, hnext⟩ := h.asleep hold
      have hut : u ≠ t := by
        rintro rfl
        cases hx.symm.trans hy₀
        exact hlook ⟨ms, (List.cons.inj (htasks.symm.trans hnext)).1⟩ rfl
      cases (hact.getElem?_of_other hut hy₀).symm.trans hy
      obtain ⟨s₀, hs₀, hq⟩ := h.recorded hy₀ hnext hb
      have hsignal := hsignals b.engine b.id
      rw [show (c.take t rest).signal b.engine b.id = some s₀ from hs₀] at hsignal
      rcases hsignal.of_ne (hapart hut hy₀ hb) hp with hsame | ⟨-, x', hx', hnext'⟩
      · -- the flag was set before, and somebody was about to tell
        cases hsame.symm.trans hs
        obtain ⟨v, z, after, hz, htells⟩ := h.told hold hy₀ hb hs₀ hflag
        by_cases hvt : v = t
        · subst hvt
          cases hx.symm.trans hz
          rcases htells with htells | htells
          · cases htasks.symm.trans htells
            obtain ⟨x', hx', hnext'⟩ := hact.of_wakeBlocked hx₀ hs₀ hq
            exact ⟨v, x', _, hx', .inr hnext'⟩
          · exact (hwake (List.cons.inj (htasks.symm.trans htells)).1).elim
        · exact ⟨v, z, after, hact.getElem?_of_other hvt hz, htells⟩
      · exact ⟨t, x', _, hx', .inl hnext'⟩
    · cases hself.symm.trans hy
      have hsignal := hsignals b.engine b.id
      rw [hs] at hsignal
      generalize hs₀ : (c.modify u fun x => { x with tasks := rest }).signal b.engine b.id =
        s₀ at hsignal
      cases hsignal with
      | keeps =>
        rw [isInterrupted_of_badge (x := { x with tasks := rest }) hb hs₀, hflag] at hdown
        cases hdown
      | breaksOff => cases hflag

theorem perm_favour (p : Nat) :
    ((c.modifyStand q (Stand.favour t)).stand p).asleep.Perm (c.stand p).asleep := by
  show (if p = q then (c.stand p).favour t else c.stand p).asleep.Perm (c.stand p).asleep
  unfold Stand.favour
  split
  · split
    · next ht => exact (List.perm_cons_erase ht).symm
    · exact .rfl
  · exact .rfl

theorem Watchful.turn {m : Move} (h : c.Watchful) (hl : c.Lawful) (hturn : Turn m c c') :
    c'.Watchful := by
  have hidle := fun (hm : ∀ u, m ≠ .step u) {u : Nat} {y : Actor} (hy : c'.actors[u]? = some y) =>
    hturn.getElem?_of_idle hm hy
  have hbusy : (∀ u, m ≠ .step u) → ∀ {u} {y : Actor} {task rest}, c.actors[u]? = some y →
      y.tasks = task :: rest → c'.actors[u]? = some y :=
    fun hm u _ _ _ hy hnext => hturn.getElem?_of_busy (hm u) hy (by rw [hnext]; nofun)
  cases hturn with
  | rests | waits => exact h
  | comes | begins =>
    refine ⟨fun hu => ?_, h.nodup, fun hy hnext hb => ?_, fun hu hy hb hs hflag => ?_⟩
    · obtain ⟨y, ms, rest, hy, hnext⟩ := h.asleep hu
      exact ⟨y, ms, rest, hbusy nofun hy hnext, hnext⟩
    · rcases hidle nofun hy with hy | hnone | ⟨i, hi⟩
      · exact h.recorded hy hnext hb
      · cases hnone.symm.trans hnext
      · cases hi.symm.trans hnext
    · obtain ⟨y₀, ms, rest, hy₀, hnext⟩ := h.asleep hu
      cases (hbusy nofun hy₀ hnext).symm.trans hy
      obtain ⟨v, z, after, hz, htells⟩ := h.told hu hy₀ hb hs hflag
      exact ⟨v, z, after, htells.elim (hbusy nofun hz) (hbusy nofun hz), htells⟩
  | @favours _ k v =>
    have hperm := fun q => perm_favour (c := c) (q := k) (t := v) q
    refine ⟨fun {q u} hu => ?_, fun q => (hperm q).nodup_iff.mpr (h.nodup q), h.recorded,
      fun {q u} y b s hu => ?_⟩
    · exact h.asleep ((hperm q).mem_iff.mp hu)
    · exact h.told ((hperm q).mem_iff.mp hu)
  | acts hx htasks hact => exact h.act hl hx htasks hact

end Watch

section Cover

/-- While somebody sleeps on a queue, there are at least as many threads of a kind that have to look
as there are entries. -/
def Covers (c : Crew) (q : Nat) (N : Nat → Prop) : Prop := (c.stand q).asleep ≠ [] →
  ∃ awake : Finset Nat, (∀ u ∈ awake, N u ∧ c.Looks u q) ∧ (c.stand q).entries.length ≤ awake.card

variable {N N' : Nat → Prop} {m : Move}

/-- **An entry comes with a thread that was woken, and a woken thread that looks takes an entry
away.** -/
theorem Covers.turn (h : c.Covers q N) (hw : c.Watchful)
    (hturn : Turn m c c') (hN : ∀ u, N u → u ∉ (c.stand q).asleep)
    (hkeep : ∀ u, N u → m ≠ .step u → u ∉ (c'.stand q).asleep → N' u)
    (hnew : ∀ u, u ∈ (c.stand q).asleep → m ≠ .step u → u ∉ (c'.stand q).asleep → N' u) :
    c'.Covers q N' := by
  intro hne'
  have hbusy := fun {u : Nat} {y : Actor} (hm : m ≠ .step u) (hy : c.actors[u]? = some y) =>
    hturn.getElem?_of_busy hm hy
  cases hturn with
  | rests hm =>
    obtain ⟨awake, hawake, hcard⟩ := h hne'
    exact ⟨awake,
      fun u hu => ⟨hkeep u (hawake u hu).1 (hm u) (hN u (hawake u hu).1), (hawake u hu).2⟩, hcard⟩
  | @waits _ t hstuck =>
    obtain ⟨awake, hawake, hcard⟩ := h hne'
    refine ⟨awake, fun u hu =>
      ⟨hkeep u (hawake u hu).1 (fun hm => ?_) (hN u (hawake u hu).1), (hawake u hu).2⟩, hcard⟩
    obtain ⟨y, ms, rest, hy, hnext⟩ := (hawake u hu).2
    cases hm
    exact hN t (hawake t hu).1 (hstuck hy hnext)
  | comes | begins =>
    obtain ⟨awake, hawake, hcard⟩ := h hne'
    refine ⟨awake, fun u hu => ⟨hkeep u (hawake u hu).1 nofun (hN u (hawake u hu).1), ?_⟩, hcard⟩
    obtain ⟨y, ms, rest, hy, hnext⟩ := (hawake u hu).2
    exact ⟨y, ms, rest, hbusy nofun hy (by rw [hnext]; nofun), hnext⟩
  | @favours _ k v =>
    have hperm := perm_favour (c := c) (q := k) (t := v) q
    have hentries : ((c.modifyStand k (Stand.favour v)).stand q).entries = (c.stand q).entries := by
      show (if q = k then (c.stand q).favour v else c.stand q).entries = _
      unfold Stand.favour
      split <;> (try split) <;> rfl
    obtain ⟨awake, hawake, hcard⟩ := h fun hnone => hne' (List.perm_nil.mp (hnone ▸ hperm))
    refine ⟨awake, fun u hu => ⟨hkeep u (hawake u hu).1 nofun fun hasleep => ?_, (hawake u hu).2⟩,
      ?_⟩
    · exact hN u (hawake u hu).1 (hperm.mem_iff.mp hasleep)
    · rwa [hentries]
  | @acts _ _ t x task rest hx htasks hact =>
    have hstays : ∀ {u}, c.Looks u q → u ≠ t → c'.Looks u q := by
      rintro u ⟨y, ms, tail, hy, hnext⟩ hut
      exact ⟨y, ms, tail, hact.getElem?_of_other hut hy, hnext⟩
    -- whoever has to look does nothing else
    have hself : c.Looks t q → ∃ ms, task = .awaitEntry q ms := by
      rintro ⟨y, ms, tail, hy, hnext⟩
      cases hx.symm.trans hy
      exact ⟨ms, (List.cons.inj (htasks.symm.trans hnext)).1⟩
    have hstep : ∀ {u}, u ≠ t → Move.step t ≠ .step u := fun hut hm => hut (Move.step.inj hm).symm
    -- those who were woken stay so, but for a thread that looks now
    have hkept : ∀ {awake : Finset Nat}, (∀ u ∈ awake, N u ∧ c.Looks u q) → (∀ u ∈ awake, u ≠ t) →
        ∀ u ∈ awake, N' u ∧ c'.Looks u q := by
      intro awake hawake hne u hu
      obtain ⟨hnotified, hlooks⟩ := hawake u hu
      refine ⟨hkeep u hnotified (hstep (hne u hu)) fun hasleep => ?_, hstays hlooks (hne u hu)⟩
      rcases (hact.handles (getElem?_modify_self hx) q).mem_asleep hasleep with ⟨hold, -⟩ | ⟨hut, -⟩
      · exact hN u hnotified hold
      · exact hne u hu hut
    have hall : (∀ ms, task ≠ .awaitEntry q ms) → ∀ {awake : Finset Nat},
        (∀ u ∈ awake, N u ∧ c.Looks u q) → ∀ u ∈ awake, N' u ∧ c'.Looks u q := by
      refine fun htask _ hawake => hkept hawake ?_
      rintro u hu rfl
      obtain ⟨ms, hms⟩ := hself (hawake u hu).2
      exact htask ms hms
    have hhandles : Handles t { x with tasks := rest } (c.take t rest) c' q (c.stand q)
        task (c'.stand q) := hact.handles (getElem?_modify_self hx) q
    generalize c'.stand q = s' at hhandles hnew hne' ⊢
    cases hhandles with
    | nothing htask =>
      obtain ⟨awake, hawake, hcard⟩ := h hne'
      exact ⟨awake, hall htask hawake, hcard⟩
    | wakes => exact (hne' rfl).elim
    | @enqueues k =>
      cases hasleep : (c.stand q).asleep with
      | nil => exact (hne' (by simp [Stand.push, hasleep])).elim
      | cons first others =>
        obtain ⟨awake, hawake, hcard⟩ := h (by rw [hasleep]; exact List.cons_ne_nil _ _)
        have hfirst : first ∈ (c.stand q).asleep := by simp [hasleep]
        have hft : first ≠ t := by
          rintro rfl
          obtain ⟨ms, hms⟩ := hself (hw.asleep hfirst)
          cases hms
        have hwoken : first ∉ ((c.stand q).push k).asleep := by
          have hnodup := hw.nodup q
          rw [hasleep] at hnodup
          simpa [Stand.push, hasleep] using (List.nodup_cons.mp hnodup).1
        have hfresh : first ∉ awake := fun hu => hN first (hawake first hu).1 hfirst
        refine ⟨insert first awake, fun u hu => ?_, ?_⟩
        · rcases Finset.mem_insert.mp hu with rfl | hu
          · exact ⟨hnew u hfirst (hstep hft) hwoken, hstays (hw.asleep hfirst) hft⟩
          · exact hall nofun hawake u hu
        · rw [Finset.card_insert_of_notMem hfresh]
          simpa [Stand.push] using hcard
    | takes hq =>
      obtain ⟨awake, hawake, hcard⟩ := h hne'
      rw [hq] at hcard
      exact ⟨awake, hall nofun hawake, Nat.le_of_succ_le hcard⟩
    | takesEntry hq =>
      have hne : (c.stand q).asleep ≠ [] := by
        intro hnone
        exact hne' (by simp [Stand.wake, hnone])
      obtain ⟨awake, hawake, hcard⟩ := h hne
      refine ⟨awake.erase t, hkept (fun u hu => hawake u (Finset.mem_of_mem_erase hu)) ?_, ?_⟩
      · exact fun u hu => Finset.ne_of_mem_erase hu
      · have hless := Finset.pred_card_le_card_erase (s := awake) (a := t)
        rw [hq, List.length_cons] at hcard
        exact (Nat.le_sub_one_of_lt hcard).trans hless
    | givesUp hq | sleeps hq => exact ⟨∅, nofun, by simp [Stand.wake, Stand.sleep, hq]⟩

end Cover

end Crew

namespace World

variable {w w' : World} {t e q : Nat} {id : ThreadId} {moves : List Move} {m : Move}

section Flags

/-- The interrupt flag of a thread of an engine, if there is such a thread. -/
def flag (w : World) (e : Nat) (id : ThreadId) : Option Bool :=
  ((w.engines[e]?).bind fun x => x.registry.get? id).map (·.interrupted)

theorem flag_eq (w : World) (e : Nat) (id : ThreadId) :
    w.flag e id = (w.crew.signal e id).map Signal.interrupted := by
  rw [flag, Crew.signal_eq, record_crew, Option.map_map]
  rfl

/-- What a step of a thread may do to the flag of some thread. -/
inductive Flips (w : World) (t e : Nat) (id : ThreadId) : Option Bool → Option Bool → Prop
  /-- The thread is interrupted. -/
  | raised {b : Bool}
      (hnext : w.nextTask t = some (.interrupt e id)) : Flips w t e id (some b) (some true)
  /-- The thread looks at an empty queue, and its wait is broken off. -/
  | reported {q : Nat} {ms : Option Nat} (hnext : w.nextTask t = some (.awaitEntry q ms))
      (hself : w.currentId t e = some id)
      (hq : (w.stand q).entries = []) : Flips w t e id (some true) (some false)
  /-- The thread asks for its flag. -/
  | taken {b : Bool} (hnext : w.nextTask t = some (.perform .takeInterrupt))
      (hself : w.currentId t e = some id) : Flips w t e id (some b) (some false)
  | left {b : Bool}
      (hnext : w.nextTask t = some (.registry e (.detach id))) : Flips w t e id (some b) none
  | joined {name : String} (hnext : w.nextTask t = some (.registry e (.attach name))) :
      Flips w t e id none (some false)

/-- **Flags change by interrupts and by what threads do with their own.** -/
theorem flips_move (w : World) (m : Move) (e : Nat) (id : ThreadId) :
    (w.move m).flag e id = w.flag e id ∨ ∃ t, m = .step t ∧
    w.Flips t e id (w.flag e id) ((w.move m).flag e id) := by
  have hturn := turn_move (w := w) m
  rw [flag_eq, flag_eq]
  generalize (w.move m).crew = c' at hturn
  cases hturn with
  | rests | waits | comes | begins | favours => exact .inl rfl
  | @acts _ _ t x task rest hx htasks hact =>
    have hnext := nextTask_of_actor hx htasks
    have hsignal : Crew.Resignals t { x with tasks := rest } (w.crew.take t rest) c' e id task
        (w.crew.signal e id) (c'.signal e id) := hact.resignals (Crew.getElem?_modify_self hx) e id
    generalize w.crew.signal e id = s at hsignal ⊢
    generalize c'.signal e id = s' at hsignal ⊢
    cases hsignal with
    | keeps | records => exact .inl rfl
    | raises => exact .inr ⟨t, rfl, .raised hnext⟩
    | @breaksOff q ms s hb hq hs =>
      refine .inr ⟨t, rfl, ?_⟩
      rw [Option.map_some, hs]
      exact .reported hnext ((currentId_eq_some_iff hx).mpr hb) hq
    | takes hb => exact .inr ⟨t, rfl, .taken hnext ((currentId_eq_some_iff hx).mpr hb)⟩
    | leaves => exact .inr ⟨t, rfl, .left hnext⟩
    | comes => exact .inr ⟨t, rfl, .joined hnext⟩

end Flags

section Waiting

/-- Whether a thread was woken and has not looked since: it was asleep on a queue, has made no step
after that, and is not asleep any more. -/
def Notified (w : World) (moves : List Move) (q t : Nat) : Prop :=
  ∃ before later, moves = before ++ later ∧ t ∈ ((w.after before).stand q).asleep ∧
    .step t ∉ later ∧ t ∉ ((w.after moves).stand q).asleep

theorem Notified.snoc (h : w.Notified moves q t) (hm : m ≠ .step t)
    (ht : t ∉ ((w.after (moves ++ [m])).stand q).asleep) : w.Notified (moves ++ [m]) q t := by
  obtain ⟨before, later, rfl, hasleep, hnone, -⟩ := h
  refine ⟨before, later ++ [m], by simp, hasleep, ?_, ht⟩
  simpa [hnone] using Ne.symm hm

theorem watchful_after (s : EngineSpec) (label : String) (moves : List Move) :
    ((start s label).after moves).crew.Watchful :=
  crew_induction s label (P := fun moves => ((start s label).after moves).crew.Watchful) (fun h =>
    h.watchful) (fun _ _ hl hturn h => h.turn hl hturn) moves

theorem covers_after (s : EngineSpec) (label : String) (moves : List Move) (q : Nat) :
    ((start s label).after moves).crew.Covers q ((start s label).Notified moves q) := by
  refine crew_induction s label (P := fun moves => ((start s label).after moves).crew.Covers q
    ((start s label).Notified moves q)) (fun hfresh hne => ?_) (fun past m _ hturn h => ?_) moves
  · exact (hne (by rw [show (start s label).after [] = start s label from rfl, hfresh.stand])).elim
  · refine h.turn (watchful_after s label past) hturn (fun u hu => ?_) (fun u hu hm => hu.snoc hm)
      fun u hu hm hout => ?_
    · obtain ⟨-, -, -, -, -, hout⟩ := hu
      exact hout
    · exact ⟨past, [m], rfl, hu, by simpa using Ne.symm hm, hout⟩

/-- What a look at a queue comes to. -/
inductive Looked (w : World) (t q : Nat) (ms : Option Nat) (w' : World) : Prop
  /-- The thread takes an entry, interrupted or not. -/
  | taken {h : Handle} {rest : List Handle} (hq : (w.stand q).entries = h :: rest)
      (hrest : (w'.stand q).entries = rest) (hnext : w'.nextTask t = some (.finishRemoval q h))
      (hflags : ∀ e id, w'.flag e id = w.flag e id)
  /-- The wait is broken off, and the flag is consumed. -/
  | interrupted (hq : (w.stand q).entries = []) (hflag : w.isInterrupted t = true)
      (hclear : w'.isInterrupted t = false) (hreply : w'.replyOf t = .failed .interrupted)
      (hnext : w'.nextTask t = some (.setBlocker none))
      (hflags : ∀ e id, w.currentId t e ≠ some id → w'.flag e id = w.flag e id)
  | timedOut (hq : (w.stand q).entries = []) (hreply : w'.replyOf t = .entry none)
      (hnext : w'.nextTask t = some (.setBlocker none))
      (hflags : ∀ e id, w'.flag e id = w.flag e id)
  | asleep (hq : (w.stand q).entries = []) (hflag : w.isInterrupted t = false)
      (hasleep : t ∈ (w'.stand q).asleep) (hnext : w'.nextTask t = some (.awaitEntry q ms))
      (hflags : ∀ e id, w'.flag e id = w.flag e id)

theorem flag_of_registries (h : w'.crew.registries = w.crew.registries) (e : Nat) (id : ThreadId) :
    w'.flag e id = w.flag e id := by
  rw [flag_eq, flag_eq, Crew.signal, h]
  rfl

/-- **A wait reports an interrupt only of a set flag and an empty queue, and nothing else it does
touches a flag.** -/
theorem looked_of_step {ms : Option Nat} (hl : w.crew.Lawful)
    (hnext : w.nextTask t = some (.awaitEntry q ms)) (h : w.step t = some w') :
    w.Looked t q ms w' := by
  obtain ⟨x, task, rest, hx, htasks, hact⟩ := act_step h
  cases hnext.symm.trans (nextTask_of_actor hx htasks)
  obtain ⟨tail, rfl, -⟩ : Posture x.badge (.awaitEntry q ms :: rest) := htasks ▸ hl.posture hx
  have hx₀ :=
    Crew.getElem?_modify_self (f := fun x => { x with tasks := .setBlocker none :: tail }) hx
  have hself : w.isInterrupted t = w.crew.isInterrupted x := isInterrupted_eq hx
  have hsignals : ∀ e id, Crew.Resignals t { x with tasks := .setBlocker none :: tail }
      (w.crew.modify t fun x => { x with tasks := .setBlocker none :: tail }) w'.crew e id
      (.awaitEntry q ms) (w.crew.signal e id) (w'.crew.signal e id) :=
    fun e id => hact.resignals hx₀ e id
  have hafter : ∀ {c : Crew} {f}, w'.crew = c.modify t f →
      c.actors = (w.crew.modify t fun x => { x with tasks := .setBlocker none :: tail }).actors →
        w'.crew.actors[t]? = some (f { x with tasks := .setBlocker none :: tail }) := by
    intro c f hcrew hactors
    rw [hcrew]
    exact Crew.getElem?_modify_self (hactors ▸ hx₀)
  generalize hc' : w'.crew = c' at hact
  cases hact with
  | @takesEntry _ h rest _ hq =>
    have hx' := hafter hc' rfl
    have hstand : (w'.crew.stand q).entries = rest := by
      rw [hc']
      exact congrArg Stand.entries (if_pos rfl)
    exact .taken hq hstand (nextTask_of_actor hx' rfl) (flag_of_registries (by rw [hc']; rfl))
  | @breaksOff _ a _ hq ha hflag =>
    have hx' := hafter hc' rfl
    refine .interrupted hq (hself.trans hflag) ?_ (replyOf_eq hx') (nextTask_of_actor hx' rfl)
      fun e id hne => ?_
    · rw [isInterrupted_eq hx', hc']
      exact Crew.isInterrupted_clear ha
    · have hsignal := hsignals e id
      rw [flag_eq, flag_eq]
      generalize w.crew.signal e id = s at hsignal ⊢
      generalize w'.crew.signal e id = s' at hsignal ⊢
      cases hsignal with
      | keeps => rfl
      | breaksOff hb => exact (hne ((currentId_eq_some_iff hx).mpr hb)).elim
  | timesOut hq =>
    have hx' := hafter hc' rfl
    exact .timedOut hq (replyOf_eq hx') (nextTask_of_actor hx' rfl)
      (flag_of_registries (by rw [hc']; rfl))
  | sleeps hq hflag =>
    have hx' := hafter hc' rfl
    have hstand : t ∈ (w'.crew.stand q).asleep := by
      rw [hc']
      show t ∈ (if q = q then _ else _ : Stand).asleep
      rw [if_pos rfl]
      exact List.mem_append_right _ (List.mem_singleton.mpr rfl)
    exact .asleep hq (hself.trans hflag) hstand (nextTask_of_actor hx' rfl)
      (flag_of_registries (by rw [hc']; rfl))
  | idles htask | polls htask => rcases htask with h | ⟨i, h⟩ <;> cases h

theorem replyOf_setBlocker {b : Option Nat} (hnext : w.nextTask t = some (.setBlocker b))
    (h : w.step t = some w') : w'.replyOf t = w.replyOf t := by
  obtain ⟨x, task, rest, hx, htasks, hact⟩ := act_step h
  cases hnext.symm.trans (nextTask_of_actor hx htasks)
  have hx' : w'.crew.actors[t]? = some { x with tasks := rest } := by
    rw [hact.of_setBlocker.1]
    exact Crew.getElem?_modify_self hx
  rw [replyOf_eq hx', replyOf_eq hx]

/-- Whether somebody has set the flag of a thread and is about to read on which queue it waits, or
to wake a queue. -/
def Interrupting (w : World) (e : Nat) (id : ThreadId) (q : Nat) : Prop :=
  ∃ u, w.nextTask u = some (.wakeBlocked e id) ∨ w.nextTask u = some (.wakeQueue q)

theorem interrupting_of_flag (hwatch : w.crew.Watchful) (ht : t ∈ (w.stand q).asleep)
    (hself : w.currentId t e = some id) (hflag : w.flag e id = some true) :
    w.Interrupting e id q := by
  obtain ⟨x, ms, rest, hx, htasks⟩ := hwatch.asleep ht
  rw [flag_eq] at hflag
  obtain ⟨s, hs, hset⟩ := Option.map_eq_some_iff.mp hflag
  obtain ⟨v, z, after, hz, htells⟩ :=
    hwatch.told ht hx ((currentId_eq_some_iff hx).mp hself) hs hset
  exact ⟨v, htells.imp (nextTask_of_actor hz) (nextTask_of_actor hz)⟩

/-- No wake-up and no interrupt of a wait for an entry is lost. -/
structure KeepsWatch (w : World) (moves : List Move) : Prop where
  waiting : ∀ q t, t ∈ ((w.after moves).stand q).asleep →
    ∃ ms, (w.after moves).nextTask t = some (.awaitEntry q ms)
  /-- Whoever cannot move in a wait is asleep. -/
  stuck : ∀ q t ms, (w.after moves).nextTask t = some (.awaitEntry q ms) →
    (w.after moves).step t = none → t ∈ ((w.after moves).stand q).asleep
  /-- While somebody sleeps, as many threads as there are entries were woken and have not looked
  since. -/
  entries : ∀ q t, t ∈ ((w.after moves).stand q).asleep → ∃ awake : Finset Nat,
    (∀ u ∈ awake, w.Notified moves q u) ∧ ((w.after moves).stand q).entries.length ≤ awake.card
  /-- While somebody sleeps whose flag is set, somebody is about to wake it. -/
  interrupts : ∀ q t e id, t ∈ ((w.after moves).stand q).asleep →
    (w.after moves).currentId t e = some id →
    (w.after moves).flag e id = some true → (w.after moves).Interrupting e id q
  looks : ∀ t q ms w', (w.after moves).nextTask t = some (.awaitEntry q ms) →
    (w.after moves).step t = some w' → (w.after moves).Looked t q ms w'
  returns : ∀ t b w', (w.after moves).nextTask t = some (.setBlocker b) →
    (w.after moves).step t = some w' → w'.replyOf t = (w.after moves).replyOf t
  flags : ∀ m e id, ((w.after moves).move m).flag e id = (w.after moves).flag e id ∨
    ∃ t, m = .step t ∧
    (w.after moves).Flips t e id ((w.after moves).flag e id) (((w.after moves).move m).flag e id)

/-- **No wake-up and no interrupt of a wait for an entry is lost.**  In no run is anybody asleep on
a queue with more entries than threads that were woken and have not looked since, nor with its flag
set unless the interrupt is still going on.  A wait reports an interrupt only if its flag was set
and the queue was empty, and then the flag is lowered; a wait that takes an entry, runs out of time
or sleeps on leaves all flags alone, and nobody else lowers one but a thread that asks for its
own. -/
theorem keepsWatch_after (s : EngineSpec) (label : String) (moves : List Move) :
    (start s label).KeepsWatch moves := by
  have hwatch := watchful_after s label moves
  have hl := crew_lawful_after s label moves
  refine ⟨fun q t ht => ?_, fun q t ms hnext hstuck => ?_, fun q t ht => ?_,
    fun q t e id => interrupting_of_flag hwatch,
    fun t q ms w' => looked_of_step hl, fun t b w' => replyOf_setBlocker, flips_move _⟩
  · obtain ⟨x, ms, rest, hx, htasks⟩ := hwatch.asleep ht
    exact ⟨ms, nextTask_of_actor hx htasks⟩
  · obtain ⟨x, rest, hx, htasks⟩ := nextTask_eq_some_iff.mp hnext
    exact mem_asleep_of_look hstuck hx htasks
  · obtain ⟨awake, hawake, hcard⟩ := covers_after s label moves q (List.ne_nil_of_mem ht)
    exact ⟨awake, fun u hu => (hawake u hu).1, hcard⟩

end Waiting

end World

end ManagedHeap
