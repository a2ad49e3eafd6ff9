import ManagedHeap.Proofs.Passing

/-!
# Polling

**Input.**  A run in which whoever stops a world names itself as initiator, or nobody if it is not
attached.

**Algorithm.**  Every move is a turn of a thread, a new thread, or an instruction for a thread that
has nothing to do.  So every such run stays lawful, and its registries stay sound.

**Results.**  `World.lawful_after`: a faithful run stays lawful.  `World.polls_after`: a thread that
runs polls exactly if it has to stop.
-/

namespace ManagedHeap

namespace World

variable {F : Prop} {w : World} {m : Move} {moves : List Move} {t e : Nat}

section Faithful

/-- The world that a thread is about to stop, with the initiator that it names. -/
def stopsNext? (w : World) (t : Nat) : Option (String × Option ThreadId) :=
  match w.nextTask t with
  | some (.perform (.stopWorld label initiator)) => some (label, initiator)
  | _ => none

/-- Whether a thread that begins to stop a world names as initiator itself if it is attached, and
nobody otherwise. -/
def FaithfulMove (w : World) : Move → Prop
  | .step t => ∀ s ∈ w.stopsNext? t, ∀ e ∈ w.names.engines.get? s.1, s.2 = w.currentId t e
  | _ => True

def FaithfulRun (w : World) : List Move → Prop
  | [] => True
  | m :: rest => w.FaithfulMove m ∧ (w.move m).FaithfulRun rest

instance decidableFaithfulMove (w : World) : (m : Move) → Decidable (w.FaithfulMove m)
  | .step t => inferInstanceAs (Decidable (∀ s ∈ w.stopsNext? t, ∀ e ∈ w.names.engines.get? s.1,
        s.2 = w.currentId t e))
  | .expire _ | .hold _ | .call _ | .instruct .. | .takeOutput | .favour .. => isTrue trivial

instance decidableFaithfulRun (w : World) : (moves : List Move) → Decidable (w.FaithfulRun moves)
  | [] => isTrue trivial
  | m :: rest =>
    have := decidableFaithfulRun (w.move m) rest
    inferInstanceAs (Decidable (w.FaithfulMove m ∧ (w.move m).FaithfulRun rest))

theorem faithful_of_nextTask (h : w.FaithfulMove (.step t))
    (hnext : w.nextTask t = some (.perform i)) : w.Faithful t i := by
  cases i with
  | stopWorld label initiator =>
    intro e he
    refine h (label, initiator) ?_ e he
    unfold stopsNext?
    rw [hnext]
    rfl
  | _ => trivial

end Faithful

section Runs

/-- What a move does to a world as registries see it. -/
inductive Stirs (F : Prop) (w : World) : Move → Yard → Prop
  | quiet (m : Move) : Stirs F w m w.yard
  | turn {t : Nat} {w' : World} (h : Turn F t w w') : Stirs F w (.step t) w'.yard
  /-- There is a new thread. -/
  | recruit (m : Move) :
      Stirs F w m { w.yard with stations := w.yard.stations.push ⟨none, [], [], .unit⟩ }
  /-- A thread is given an instruction. -/
  | assign (m : Move) {t : Nat} {x : Station}
      (hx : w.yard.stations[t]? = some x) (htasks : x.tasks = [])
      (i : Instruction) : Stirs F w m (w.yard.modify t fun _ => { x with tasks := [.perform i] })

theorem stirs_move (hl : w.yard.Lawful F) (hm : F → w.FaithfulMove m) :
    w.Stirs F m (w.move m).yard := by
  have hturn := turn_move (w := w) m
  rw [← yard_crew]
  generalize hc : (w.move m).crew = c' at hturn
  cases hturn with
  | rests | waits => rw [yard_crew]; exact .quiet _
  | @favours _ q t =>
    rw [show (w.crew.modifyStand q (Stand.favour t)).yard = w.crew.yard from rfl, yard_crew]
    exact .quiet _
  | comes =>
    have hyard : ∀ c : Crew, Crew.yard { c with actors := c.actors.push ⟨none, [], [], .unit⟩ } =
        { c.yard with stations := c.yard.stations.push ⟨none, [], [], .unit⟩ } := by
      intro c
      rw [Crew.yard, Array.map_push]
      rfl
    rw [hyard, yard_crew]
    exact .recruit _
  | begins hx hidle =>
    rw [Crew.yard_modify hx rfl, yard_crew]
    exact .assign _ (yard_crew ▸ Crew.stations_yard hx) hidle _
  | @acts _ _ t =>
    rw [← hc, yard_crew]
    cases h : w.step t with
    | none =>
      rw [show w.move (.step t) = w by simp [move, h]]
      exact .quiet _
    | some w' =>
      rw [show w.move (.step t) = w' by simp [move, h]]
      exact .turn (turn_of_step hl (fun i hi hF => faithful_of_nextTask (hm hF) hi) h)

theorem lawful_move (hl : w.yard.Lawful F) (hm : F → w.FaithfulMove m) :
    (w.move m).yard.Lawful F := by
  have hstirs := stirs_move hl hm
  generalize (w.move m).yard = y' at hstirs
  cases hstirs with
  | quiet => exact hl
  | turn h => exact h.lawful hl
  | recruit => exact hl.recruit rfl
  | assign _ hx htasks i => exact hl.pass hx (Station.passes_assign htasks i)

theorem lawful_moves (hl : w.yard.Lawful F) (hm : F → w.FaithfulRun moves) :
    (w.after moves).yard.Lawful F := by
  induction moves generalizing w with
  | nil => exact hl
  | cons m rest ih => exact ih (lawful_move hl fun hF => (hm hF).1) fun hF => (hm hF).2

theorem lawful_empty : ({} : World).yard.Lawful F where
  soundly _ e r hr := by simp [yard] at hr
  orderly t x hx := by simp [yard] at hx
  issued t x b hx := by simp [yard] at hx
  unique t u x z b hx := by simp [yard] at hx
  counted e := by simp [yard, Yard.tokens, total, Yard.isStopped]
  initiated t x e i r hx := by simp [yard] at hx

theorem shifts_start (s : EngineSpec) (label : String) :
    Shifts F 0 ({} : World).yard (start s label).yard := by
  obtain ⟨made, hired, h⟩ := extends_start s label
  rw [← yard_crew, ← yard_crew, h.crew]
  exact Crew.shifts_extends h.made h.hired

theorem idle_empty : ({} : World).yard.Idle 0 := fun x hx => by simp [yard] at hx

theorem lawful_start (s : EngineSpec) (label : String) : (start s label).yard.Lawful F :=
  lawful_empty.shifts idle_empty (shifts_start s label)

/-- **A faithful run stays lawful.** -/
theorem lawful_after (s : EngineSpec) (label : String) (hm : (start s label).FaithfulRun moves) :
    ((start s label).after moves).yard.Lawful True :=
  lawful_moves (lawful_start s label) fun _ => hm

theorem kept_after (s : EngineSpec) (label : String) (moves : List Move) :
    ((start s label).after moves).yard.Lawful False :=
  lawful_moves (lawful_start s label) False.elim

end Runs

section Polling

theorem checkpoint_eq {x : Runtime} {m : Mutator} (hx : w.engines[e]? = some x)
    (hd : x.registry.ids.Nodup) (hm : m ∈ x.registry.mutators) (ht : w.currentId t e = some m.id) :
    w.checkpoint t e = if m.pollRequested then w.push t [.registry e (.poll m.id)] else w := by
  have hmutator : w.mutator? t e = some m := by
    unfold mutator?
    rw [ht, hx]
    exact Registry.get?_of_mem hd hm
  unfold checkpoint
  rw [hmutator]

/-- **A thread that runs polls exactly if it has to stop.**  In the course of a run in which whoever
stops a world names itself as initiator, the flag of a thread that runs or was asked to stop is up
exactly if it was asked to, which is so exactly if the registry wants it to park.  So the poll
without the lock comes in if and only if it has to. -/
theorem polls_after (s : EngineSpec) (label : String)
    (moves : List Move) (h : (start s label).FaithfulRun moves)
    {e : Nat} {x : Runtime} {m : Mutator} (hx : ((start s label).after moves).engines[e]? = some x)
    (hm : m ∈ x.registry.mutators) (hs : m.status = .running ∨ m.status = .safepointRequested) :
    (m.pollRequested = true ↔ m.status = .safepointRequested) ∧ (m.status = .safepointRequested ↔
      x.registry.mustPark m.id = true) ∧ (x.registry.mustPark m.id = true ↔
      0 < m.suspendCount ∨ x.registry.worldStopped = true ∧ x.registry.initiator ≠ some m.id) ∧
    ∀ t, ((start s label).after moves).currentId t e = some m.id →
    ((start s label).after moves).checkpoint t e =
          if x.registry.mustPark m.id then ((start s label).after moves).push t
            [.registry e (.poll m.id)]
          else (start s label).after moves := by
  have hsound := (lawful_after s label h).sound e x.registry (registry_of_engine hx)
  have hpolled := hsound.polled m hm
  have hpark := Registry.mustPark_iff hsound.distinct hm
  have hagrees : (m.pollRequested = true ↔ m.status = .safepointRequested) ∧
      (m.status = .safepointRequested ↔ x.registry.mustPark m.id = true) := by
    rw [hpark]
    rcases hs with hrunning | hrequested
    · obtain ⟨hflag, hno⟩ := hpolled.running hrunning
      simp [hrunning, hflag, hno]
    · obtain ⟨hflag, hstops⟩ := hpolled.requested hrequested
      simp [hrequested, hflag, hstops]
  refine ⟨hagrees.1, hagrees.2, hpark, fun t ht => ?_⟩
  rw [checkpoint_eq hx hsound.distinct hm ht]
  simp only [hagrees.1.trans hagrees.2]

/-- An instruction for a thread, with so many steps. -/
def given (t number : Nat) (i : Instruction) (steps : Nat) : List Move :=
  .instruct t number false i :: List.replicate steps (.step t)

/-- One of two attached threads stops the world, and waits for the other one. -/
def stopMoves : List Move :=
  [.call "main", .call "worker", .call "late"] ++ given 0 0 (.attach "gc" "main") 8 ++
    given 1 1 (.attach "gc" "worker") 8 ++ given 0 2 (.requestSuspend "gc" 2 1) 8 ++
    given 0 3 (.stopWorld "gc" (some 1)) 2

theorem polls_requested :
    ∃ x m, ((start standardEngine "gc").after stopMoves).engines[0]? = some x ∧
      m ∈ x.registry.mutators ∧
      m.status = .safepointRequested ∧ m.pollRequested = true ∧ x.registry.mustPark m.id = true ∧
      ((start standardEngine "gc").after stopMoves).checkpoint 1 0 =
        ((start standardEngine "gc").after stopMoves).push 1 [.registry 0 (.poll m.id)] := by
  have hrecord :
      (((start standardEngine "gc").after stopMoves).engines[0]?).map (·.registry.mutators) =
      some [{ id := 1, name := "main" },
        { id := 2, name := "worker", status := .safepointRequested, suspendCount := 1,
          pollRequested := true }] := by
    decide +kernel
  obtain ⟨x, hx, hmutators⟩ := Option.map_eq_some_iff.mp hrecord
  refine ⟨x, ⟨2, "worker", .safepointRequested, 1, true, false, none⟩,
    hx, by simp [hmutators], rfl, rfl, ?_⟩
  obtain ⟨-, hpark, -, hpoll⟩ := polls_after standardEngine "gc" stopMoves (by decide +kernel) hx
    (m := ⟨2, "worker", .safepointRequested, 1, true, false, none⟩) (by simp [hmutators]) (.inr rfl)
  have hmust := hpark.mp rfl
  have hcheck := hpoll 1 (by decide +kernel)
  rw [if_pos hmust] at hcheck
  exact ⟨hmust, hcheck⟩

end Polling

end World

end ManagedHeap
