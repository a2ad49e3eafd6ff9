import ManagedHeap.Proofs.Polling

/-!
# The world stands still

**Input.**  A run in which whoever stops a world names itself as initiator, and more moves.

**Algorithm.**  A pause has a guard from the section in which its call returns to the section that
ends it.  Guards pass from the value of the call to the program or the collector and from there to
the task that ends the pause.  As long as there is one, no section sets a thread going but the
initiator.

**Results.**  `World.excludes_after`: an engine has at most one guard; who stands still while there
is one, and how many threads the call reports.
-/

namespace ManagedHeap

variable {op : Operation} {i : Option ThreadId} {r r' : Registry} {rest : List Task} {p : Progress}
  {x : Station} {k : Nat}

/-- Whether a section ends a call that stops a world, because everybody stands still. -/
def Operation.IsReturn (op : Operation) (p : Progress) : Prop :=
  ∃ i k, (op = .stopWorld i ∨ op = .awaitStops i) ∧ p = .answered (.count k)

/-- A guard comes with the return of a call, and goes with the section that ends the pause. -/
theorem Station.Handover.guards {x' : Station} {e : Nat} (h : Handover e op p r r' x x') :
    ¬op.IsReturn p ∧ op ≠ .releaseWorld ∧ x'.guards = x.guards ∨ op.IsReturn p ∧
    x'.guards = e ::ₘ x.guards ∨ op = .releaseWorld ∧ x.guards = e ::ₘ x'.guards := by
  cases h with
  | begins i hop hp _ _ _ hguards =>
    refine .inl ⟨?_, ?_, hguards⟩
    · rintro ⟨_, k, -, hcount⟩
      rw [hp] at hcount
      cases hcount
    · rw [hop]
      nofun
  | stops i k hop hp _ _ _ hguards => exact .inr (.inl ⟨⟨i, k, .inl hop, hp⟩, hguards⟩)
  | arrives i k hop hp _ _ hguards => exact .inr (.inl ⟨⟨i, k, .inr hop, hp⟩, hguards⟩)
  | fails i hop hp _ hguards =>
    refine .inl ⟨?_, ?_, hguards⟩
    · rintro ⟨_, k, -, hcount⟩
      exact hp k hcount
    · rw [hop]
      nofun
  | ends hop _ hguards => exact .inr (.inr ⟨hop, hguards⟩)
  | stays hop hp _ _ hguards =>
    refine .inl ⟨?_, hop, hguards⟩
    rintro ⟨i, k, hcall, hcount⟩
    exact hp i k hcall hcount

namespace Yard

variable {F : Prop} {y y' : Yard} {t e : Nat} {x x' : Station}

section Guards

/-- The pauses whose call has returned and which nobody has ended yet. -/
def guards (y : Yard) : Multiset Nat := total y.stations Station.guards

theorem tokens_eq : y.tokens = y.guards + total y.stations fun x => ↑(x.awaits.map Prod.fst) := by
  unfold tokens guards total Station.tokens
  exact List.sum_map_add

theorem Lawful.count_tokens_le (h : y.Lawful F) (e : Nat) : y.tokens.count e ≤ 1 := by
  rw [h.counted e]
  split
  · exact le_rfl
  · exact Nat.zero_le 1

theorem Lawful.count_guards_le (h : y.Lawful F) (e : Nat) : y.guards.count e ≤ 1 := by
  have htokens := h.count_tokens_le e
  rw [tokens_eq, Multiset.count_add] at htokens
  omega

theorem Lawful.not_mem_awaits (h : y.Lawful F) (hguard : y.guards.count e ≠ 0)
    (hx : y.stations[t]? = some x) : (e, i) ∉ x.awaits := by
  intro hmem
  have htokens := h.count_tokens_le e
  have hwaits : e ∈ total y.stations fun x => (↑(x.awaits.map Prod.fst) : Multiset Nat) :=
    mem_total.mpr ⟨x, Array.mem_of_getElem? hx, Multiset.mem_coe.mpr (List.mem_map_of_mem hmem)⟩
  have hpos := Multiset.count_pos.mpr hwaits
  rw [tokens_eq, Multiset.count_add] at htokens
  omega

theorem guards_modify (hx : y.stations[t]? = some x) (h : x'.guards = x.guards) :
    (y.modify t fun _ => x').guards = y.guards := by
  obtain ⟨rest, hbefore, hafter⟩ := exists_total_modify hx (fun _ => x') Station.guards
  unfold guards
  rw [hbefore, modify, hafter, h]

theorem Lawful.guards_operate (hl : y.Lawful F) (hx : y.stations[t]? = some x)
    (htasks : x.tasks = .registry e op :: rest) (hsec : r.Section t op r' p) : ¬op.IsReturn p ∧
    op ≠ .releaseWorld ∧ (y.operate t e (x.advance e rest p) r').guards = y.guards ∨
    op.IsReturn p ∧ (y.operate t e (x.advance e rest p) r').guards = e ::ₘ y.guards ∨
    op = .releaseWorld ∧ y.guards = e ::ₘ (y.operate t e (x.advance e rest p) r').guards := by
  have horderly := hl.orderly t x hx
  rw [htasks] at horderly
  obtain ⟨others, hold, hnew⟩ := exists_total_modify hx (fun _ => x.advance e rest p) Station.guards
  replace hold : y.guards = x.guards + others := hold
  replace hnew :
      (y.operate t e (x.advance e rest p) r').guards = (x.advance e rest p).guards + others := hnew
  rw [hold, hnew, ← Multiset.cons_add, ← Multiset.cons_add]
  have hover := Station.handover htasks horderly.2.1 hsec
  rcases hover.guards with ⟨hreturn, hend, hsame⟩ | ⟨hreturn, hmore⟩ | ⟨hend, hless⟩
  · exact .inl ⟨hreturn, hend, by rw [hsame]⟩
  · exact .inr (.inl ⟨hreturn, by rw [hmore]⟩)
  · exact .inr (.inr ⟨hend, by rw [hless]⟩)

theorem guards_recruit {tasks : List Task} (htasks : tasks.all Task.isOrdinary = true) :
    guards { y with stations := y.stations.push ⟨none, [], tasks, .unit⟩ } = y.guards := by
  have hidle : expects tasks = none := by
    have happend : expects (tasks ++ []) = none := expects_append htasks rfl
    rwa [List.append_nil] at happend
  unfold guards
  rw [total_push, Station.guards_of_idle hidle]
  dsimp only
  rw [guards_of_ordinary htasks, Multiset.coe_nil, add_zero, add_zero]

theorem guards_shift (hl : y.Lawful F) (hidle : y.Idle t) (hs : Shift F t y y') :
    y'.guards = y.guards := by
  cases hs with
  | @station x x' hx halters =>
    exact guards_modify hx (halters.keeps (hl.orderly t x hx) (hidle x hx)).guards
  | amend e hf => rfl
  | openRegistry ms => rfl
  | recruit e => exact guards_recruit rfl

end Guards

section Stillness

variable {i : Option ThreadId} {bound : ThreadId}

/-- The world of an engine stands still for an initiator, and for everybody with a number below the
bound. -/
def StillAt (y : Yard) (e : Nat) (i : Option ThreadId) (bound : ThreadId) : Prop :=
  ∃ r, y.registries[e]? = some r ∧ r.Still i bound ∧ bound ≤ r.nextId

theorem still_shift (h : y.StillAt e i bound) (hs : Shift F t y y') : y'.StillAt e i bound := by
  obtain ⟨r, hr, hstill, hbound⟩ := h
  cases hs with
  | station hx halters | recruit k => exact ⟨r, hr, hstill, hbound⟩
  | @amend k id f hf =>
    by_cases hk : k = e
    · subst hk
      refine ⟨r.update id f, ?_, ?_, hbound⟩
      · simp [modifyRegistry, Array.getElem?_modify, hr]
      · refine ⟨hstill.stopped, hstill.initiator,
          Registry.forall_mem_update hstill.quiet fun m _ _ hquiet => ?_⟩
        unfold Mutator.isStopped at hquiet ⊢
        rwa [(hf m).id, (hf m).status]
    · refine ⟨r, ?_, hstill, hbound⟩
      simp [modifyRegistry, Array.getElem?_modify, hk, hr]
  | openRegistry ms =>
    refine ⟨r, ?_, hstill, hbound⟩
    have he := (Array.getElem?_eq_some_iff.mp hr).1
    rw [Array.getElem?_push, if_neg (Nat.ne_of_lt he)]
    exact hr

theorem still_operate (hl : y.Lawful True) (h : y.StillAt e i bound) (hguard : y.guards.count e ≠ 0)
    (hx : y.stations[t]? = some x) (htasks : x.tasks = .registry k op :: rest)
    (hr : y.registries[k]? = some r) (hsec : r.Section t op r' p)
    (hguard' : (y.operate t k (x.advance k rest p) r').guards.count e ≠ 0) :
    (y.operate t k (x.advance k rest p) r').StillAt e i bound := by
  obtain ⟨r₀, hr₀, hstill, hbound⟩ := h
  by_cases hk : k = e
  · subst hk
    rw [hr] at hr₀
    cases hr₀
    have hawait : ∀ j, op ≠ .awaitStops j := by
      rintro j rfl
      refine hl.not_mem_awaits hguard (i := j) hx ?_
      rw [Station.awaits_of_head htasks]
      exact List.mem_cons_self ..
    have hrelease : op ≠ .releaseWorld := by
      rintro rfl
      have hcount := hl.count_guards_le k
      rcases hl.guards_operate hx htasks hsec with ⟨-, hno, -⟩ | ⟨⟨i, n, hop, -⟩, -⟩ | ⟨-, hless⟩
      · exact hno rfl
      · rcases hop with hop | hop <;> cases hop
      · rw [hless, Multiset.count_cons_self] at hcount
        omega
    exact ⟨r', getElem?_operate_self hr, hstill.step (hl.sound k r hr) hbound hrelease hawait hsec,
      hbound.trans hsec.nextId_le⟩
  · exact ⟨r₀, by rwa [getElem?_operate_of_ne (Ne.symm hk)], hstill, hbound⟩

end Stillness

end Yard

namespace World

variable {F : Prop} {w : World} {m : Move} {moves : List Move} {t e : Nat} {bound : ThreadId}
  {x : Thread}

section Turning

variable {w' : World}

theorem guards_goesOn {x' : Station} (hl : w.yard.Lawful F) (hx : w.threads[t]? = some x)
    (hpasses : x.station.Passes F w.engines.size x')
    (hs : Relation.ReflTransGen (Shift F t) (w.yard.modify t fun _ => x') w'.yard) :
    w'.yard.guards = w.yard.guards := by
  rw [← size_registries] at hpasses
  have hstation := station_of_thread hx
  refine (hl.pass hstation hpasses).shifts_induction (P := fun z => z.guards = w.yard.guards)
    (Yard.idle_pass hpasses) hs ?_ (Yard.guards_modify hstation hpasses.guards)
  intro z z' hz hidle hshift hsame
  exact (Yard.guards_shift hz hidle hshift).trans hsame

theorem Turn.still (hl : w.yard.Lawful True) (h : w.yard.StillAt e i bound)
    (hguard : w.yard.guards.count e ≠ 0) (hguard' : w'.yard.guards.count e ≠ 0)
    (hturn : Turn True t w w') : w'.yard.StillAt e i bound := by
  cases hturn with
  | operates hx htasks ha hstep hyard =>
    rw [hyard] at hguard' ⊢
    exact Yard.still_operate hl h hguard (station_of_thread hx) htasks (registry_of_engine ha)
      (Registry.section_of_step hstep) hguard'
  | goesOn hx hpasses hs =>
    rw [← size_registries] at hpasses
    refine (hl.pass (station_of_thread hx) hpasses).shifts_induction (P := fun z =>
      z.StillAt e i bound) (Yard.idle_pass hpasses) hs ?_ h
    intro z z' _ _ hshift hz
    exact Yard.still_shift hz hshift

end Turning

section Exclusion

/-- Number of guards of the pauses of an engine: in the values of calls that have returned, in
stretches of programs, and in tasks that end a pause. -/
def guards (w : World) (e : Nat) : Nat := (total w.threads fun x => x.station.guards).count e

theorem guards_eq (w : World) (e : Nat) : w.guards e = w.yard.guards.count e := by
  unfold guards Yard.guards yard total
  rw [Array.toList_map, List.map_map]
  rfl

/-- The call on the registry of an engine that a thread is in. -/
def callOf (w : World) (t : Nat) : Option (Nat × Operation) :=
  match w.nextTask t with
  | some (.registry e op) => some (e, op)
  | _ => none

/-- Whether the next step of a thread ends its call to stop the world of an engine, for this
initiator and with this number of threads. -/
def Returns (w : World) (t e : Nat) (i : Option ThreadId) (k : Nat) : Prop :=
  ∃ op x r, (op = .stopWorld i ∨ op = .awaitStops i) ∧ w.callOf t = some (e, op) ∧
    w.engines[e]? = some x ∧ x.registry.step t (w.isExpired t) op = some (r, .answered (.count k))

/-- Whether the next step of a thread ends a pause of an engine. -/
def Ends (w : World) (t e : Nat) : Prop := w.callOf t = some (e, .releaseWorld)

/-- The threads of an engine stand still: nobody but the initiator runs, and those who were attached
at first are parked or inside a blocking region. -/
def StandStill (w : World) (e : Nat) (i : Option ThreadId) (first : List ThreadId) : Prop :=
  ∃ x, w.engines[e]? = some x ∧ ∀ m ∈ x.registry.mutators, i ≠ some m.id →
    m.status ≠ .running ∧ (m.id ∈ first → m.status = .suspended ∨ m.status = .blocked)

/-- Pauses exclude each other and everybody else. -/
structure Excludes (w : World) : Prop where
  /-- At most one pause of an engine has a guard. -/
  single : ∀ e, w.guards e ≤ 1
  /-- The return of the call makes the guard and the end of the pause takes it away; nothing else
  does. -/
  changes : ∀ m e, w.FaithfulMove m → (w.move m).guards e = w.guards e ∨
    ∃ t, m = .step t ∧ ((∃ i k, w.Returns t e i k) ∨ w.Ends t e)
  ends : ∀ t e, w.Ends t e → w.guards e = 1 ∧ (w.move (.step t)).guards e = 0
  /-- The call counts the attached threads but the initiator, and they stand still as long as the
  guard is there. -/
  returns : ∀ t e i k, w.Returns t e i k → w.guards e = 0 ∧ (w.move (.step t)).guards e = 1 ∧
    i = w.currentId t e ∧ ∃ x, (w.move (.step t)).engines[e]? = some x ∧
    k = (x.registry.others i).length ∧ ∀ more, (w.move (.step t)).FaithfulRun more →
    (∀ n, ((w.move (.step t)).after (more.take n)).guards e ≠ 0) →
    ((w.move (.step t)).after more).StandStill e i x.registry.ids

theorem exists_tasks_of_callOf (h : w.callOf t = some (e, op)) :
    ∃ x rest, w.threads[t]? = some x ∧ x.tasks = .registry e op :: rest := by
  unfold callOf at h
  split at h <;> cases h
  next hnext =>
    obtain ⟨x, hx, hhead⟩ := Option.bind_eq_some_iff.mp hnext
    obtain ⟨rest, hrest⟩ := List.head?_eq_some_iff.mp hhead
    exact ⟨x, rest, hx, hrest⟩

theorem callOf_of_tasks (hx : w.threads[t]? = some x) (htasks : x.tasks = .registry e op :: rest) :
    w.callOf t = some (e, op) := by
  unfold callOf nextTask
  rw [hx, Option.bind_some, htasks]
  rfl

theorem yard_step_registry {a : Runtime} (hx : w.threads[t]? = some x)
    (htasks : x.tasks = .registry e op :: rest)
    (ha : w.engines[e]? = some a) (hstep : a.registry.step t (w.isExpired t) op = some (r', p)) :
    (w.move (.step t)).yard = w.yard.operate t e (x.station.advance e rest p) r' := by
  obtain ⟨after, hrun⟩ : ∃ after,
      (w.modifyThread t fun z => { z with tasks := rest }).runOperation t e op = some after := by
    unfold runOperation
    rw [show (w.modifyThread t fun z => { z with tasks := rest }).engines[e]? = some a from ha]
    dsimp only
    rw [isExpired_take, hstep]
    cases p with
    | finished | answered v | continues op' => exact ⟨_, rfl⟩
  have hmove : w.move (.step t) = after.modifyThread t fun z => { z with expired := false } := by
    simp only [move, step, hx, htasks, runTask, hrun, Option.map_some, Option.getD_some]
  obtain ⟨r₁, p₁, hstep₁, hyard⟩ := exists_section_of_runOperation hx ha hrun
  rw [hstep] at hstep₁
  cases hstep₁
  have hcrew : (w.move (.step t)).crew = after.crew := by
    rw [hmove]
    exact crew_modifyThread_of_actor fun _ => rfl
  rw [← hyard, ← yard_crew, hcrew, yard_crew]

theorem exists_engine_of_registry (hr : w.yard.registries[e]? = some r) :
    ∃ a, w.engines[e]? = some a ∧ a.registry = r := by
  rw [getElem?_registries] at hr
  exact Option.map_eq_some_iff.mp hr

/-- Whoever returns from a call that stops a world leaves everybody else standing still, and counts
them. -/
theorem returned_of_section {x : Station} (hl : w.yard.Lawful F) (hx : w.yard.stations[t]? = some x)
    (htasks : x.tasks = .registry e op :: rest) (hr : w.yard.registries[e]? = some r)
    (hop : op = .stopWorld i ∨ op = .awaitStops i)
    (hsec : r.Section t op r' (.answered (.count k))) : r'.Still i r'.nextId ∧ k = r'.held i := by
  rcases hop with rfl | rfl
  · cases hsec with
    | stops hfree hall => exact ⟨Registry.still_of_allStopped rfl hall, rfl⟩
  · have hmem : (e, i) ∈ x.awaits := by
      rw [Station.awaits_of_head htasks]
      exact List.mem_cons_self ..
    obtain ⟨r₀, hr₀, hstopped⟩ := hl.exists_of_mem_tokens (Yard.mem_tokens_of_awaits hx hmem)
    rw [hr] at hr₀
    cases hr₀
    have hi : r.initiator = i := hl.initiated t x e i r hx hmem hr
    cases hsec with
    | arrives hall =>
      have hstill := Registry.still_of_allStopped hstopped hall
      rw [hi] at hstill
      exact ⟨hstill.asleep, rfl⟩

variable (hl : w.yard.Lawful True)

include hl

/-- The initiator is the thread that calls, and it is attached if it names itself. -/
theorem initiator_of_orderly {x : Station} (hx : w.yard.stations[t]? = some x)
    (htasks : x.tasks = .registry e op :: rest) (hr : w.yard.registries[e]? = some r)
    (hop : op = .stopWorld i ∨ op = .awaitStops i)
    (hsec : r.Section t op r' (.answered (.count k))) :
    i = Badge.idIn x.badge e ∧ ∀ id, i = some id → id ∈ r'.ids := by
  have hidle : expects x.tasks = none := by rw [htasks]; rfl
  have horderly := hl.orderly t x hx
  rw [htasks] at horderly
  have hi : i = Badge.idIn x.badge e := by
    rcases hop with rfl | rfl
    · exact horderly.1.2 trivial
    · exact horderly.1.2 trivial
  refine ⟨hi, fun id hid => ?_⟩
  obtain ⟨b, hb, rfl, rfl⟩ := Badge.eq_of_idIn (hi.symm.trans hid)
  obtain ⟨r₀, hr₀, -, hmem⟩ := hl.issued t x b hx ((Station.held_of_idle hidle).trans hb)
  rw [hr] at hr₀
  cases hr₀
  refine hsec.mem_ids (hmem (by simp [hidle])) ?_
  rcases hop with rfl | rfl <;> nofun

theorem stillAt_move (hm : w.FaithfulMove m) (hguard : w.guards e ≠ 0)
    (hguard' : (w.move m).guards e ≠ 0) (h : w.yard.StillAt e i bound) :
    (w.move m).yard.StillAt e i bound := by
  rw [guards_eq] at hguard hguard'
  have hstirs := stirs_move hl fun _ => hm
  generalize (w.move m).yard = y' at hstirs hguard'
  cases hstirs with
  | quiet => exact h
  | turn hturn => exact hturn.still hl h hguard hguard'
  | recruit => exact h
  | assign => exact h

theorem stillAt_moves (hm : w.FaithfulRun moves)
    (hguard : ∀ n, (w.after (moves.take n)).guards e ≠ 0) (h : w.yard.StillAt e i bound) :
    (w.after moves).yard.StillAt e i bound := by
  induction moves generalizing w with
  | nil => exact h
  | cons m rest ih =>
    have hnow : w.guards e ≠ 0 := hguard 0
    have hnext : (w.move m).guards e ≠ 0 := hguard 1
    exact ih (lawful_move hl fun _ => hm.1) hm.2 (fun n =>
      hguard (n + 1)) (stillAt_move hl hm.1 hnow hnext h)

omit hl

theorem standStill_of_stillAt {first : List ThreadId} (h : w.yard.StillAt e i bound)
    (hfirst : ∀ id ∈ first, id < bound) : w.StandStill e i first := by
  obtain ⟨r, hr, hstill, -⟩ := h
  obtain ⟨a, ha, rfl⟩ := exists_engine_of_registry hr
  refine ⟨a, ha, fun m hm hi => ?_⟩
  obtain ⟨hstatus, hstopped⟩ := hstill.quiet m hm hi
  exact ⟨hstatus, fun hmem => Mutator.isStopped_iff.mp (hstopped (hfirst m.id hmem))⟩

theorem Turn.guards {w' : World} (hl : w.yard.Lawful F) (h : Turn F t w w') (e : Nat) :
    w'.guards e = w.guards e ∨ (∃ i k, w.Returns t e i k) ∨ w.Ends t e := by
  rw [guards_eq, guards_eq]
  cases h with
  | goesOn hx hpasses hs =>
    left
    rw [guards_goesOn hl hx hpasses hs]
  | @operates x k op rest a r' p hx htasks ha hstep hyard =>
    have hcall := callOf_of_tasks hx htasks
    rw [hyard]
    by_cases hk : k = e
    · subst hk
      rcases hl.guards_operate (station_of_thread hx) htasks (Registry.section_of_step hstep) with
        ⟨-, -, hsame⟩ | ⟨⟨i, n, hop, rfl⟩, -⟩ | ⟨rfl, -⟩
      · exact .inl (congrArg _ hsame)
      · exact .inr (.inl ⟨i, n, op, a, r', hop, hcall, ha, hstep⟩)
      · exact .inr (.inr hcall)
    · left
      rcases hl.guards_operate (station_of_thread hx) htasks (Registry.section_of_step hstep) with
        ⟨-, -, hsame⟩ | ⟨-, hmore⟩ | ⟨-, hless⟩
      · rw [hsame]
      · rw [hmore, Multiset.count_cons_of_ne (Ne.symm hk)]
      · rw [hless, Multiset.count_cons_of_ne (Ne.symm hk)]

include hl

theorem guards_move (hm : w.FaithfulMove m) (e : Nat) : (w.move m).guards e = w.guards e ∨
    ∃ t, m = .step t ∧ ((∃ i k, w.Returns t e i k) ∨ w.Ends t e) := by
  have hstirs := stirs_move hl fun _ => hm
  rw [guards_eq, guards_eq]
  generalize (w.move m).yard = y' at hstirs
  cases hstirs with
  | quiet => exact .inl rfl
  | @turn t w' hturn =>
    rcases hturn.guards hl e with hsame | hchange
    · rw [guards_eq, guards_eq] at hsame
      exact .inl hsame
    · exact .inr ⟨t, rfl, hchange⟩
  | recruit =>
    left
    rw [Yard.guards_recruit rfl]
  | assign _ hx htasks i =>
    left
    rw [Yard.guards_modify hx (Station.passes_assign (F := True) (n := 0) htasks i).guards]

theorem excludes_of_lawful : w.Excludes where
  single e := by
    rw [guards_eq]
    exact hl.count_guards_le e
  changes m e hm := guards_move hl hm e
  ends t e hends := by
    obtain ⟨x, rest, hx, htasks⟩ := exists_tasks_of_callOf hends
    obtain ⟨a, ha⟩ := exists_engine_of_orderly hl hx htasks rfl
    have hstep : a.registry.step t (w.isExpired t) .releaseWorld =
        some (a.registry.release.wakeAll, .finished) := rfl
    have hcount := hl.count_guards_le e
    rw [← guards_eq] at hcount
    have hguards : w.guards e = (w.move (.step t)).guards e + 1 := by
      rw [guards_eq, guards_eq, yard_step_registry hx htasks ha hstep]
      rcases hl.guards_operate (station_of_thread hx) htasks (Registry.section_of_step hstep) with
        ⟨-, hno, -⟩ | ⟨⟨i, k, hop, -⟩, -⟩ | ⟨-, hless⟩
      · exact (hno rfl).elim
      · rcases hop with hop | hop <;> cases hop
      · rw [hless, Multiset.count_cons_self]
    omega
  returns t e i k hreturns := by
    obtain ⟨op, a, r', hop, hcall, ha, hstep⟩ := hreturns
    obtain ⟨x, rest, hx, htasks⟩ := exists_tasks_of_callOf hcall
    have hstation := station_of_thread hx
    have hr := registry_of_engine ha
    have hsec := Registry.section_of_step hstep
    have hyard := yard_step_registry hx htasks ha hstep
    have hl' : (w.move (.step t)).yard.Lawful True := by
      rw [hyard]
      exact hl.operate hstation hr htasks hsec
    have hguards : (w.move (.step t)).guards e = w.guards e + 1 := by
      rw [guards_eq, guards_eq, hyard]
      rcases hl.guards_operate hstation htasks hsec with ⟨hno, -⟩ | ⟨-, hmore⟩ | ⟨hend, -⟩
      · exact (hno ⟨i, k, hop, rfl⟩).elim
      · rw [hmore, Multiset.count_cons_self]
      · rcases hop with rfl | rfl <;> cases hend
    have hle := hl'.count_guards_le e
    rw [← guards_eq] at hle
    have hr' : (w.move (.step t)).yard.registries[e]? = some r' := by
      rw [hyard]
      exact Yard.getElem?_operate_self hr
    have hsound := hl'.sound e r' hr'
    obtain ⟨hi, hattached⟩ := initiator_of_orderly hl hstation htasks hr hop hsec
    obtain ⟨hstill, hk⟩ := returned_of_section hl hstation htasks hr hop hsec
    obtain ⟨a', ha', rfl⟩ := exists_engine_of_registry hr'
    refine ⟨by omega, by omega, ?_, a', ha', ?_, fun more hmore hguard => ?_⟩
    · rw [hi, currentId_eq hx]
    · rw [hk, Registry.held_eq_length_others hsound.distinct hattached]
    · refine standStill_of_stillAt (stillAt_moves hl' hmore hguard ⟨a'.registry, hr', hstill,
          le_rfl⟩) ?_
      exact hsound.issued

omit hl

theorem guards_start (s : EngineSpec) (label : String) : (start s label).yard.guards = 0 := by
  have hempty : ({} : World).yard.guards = 0 := by simp [Yard.guards, yard, total]
  refine (lawful_empty (F := True)).shifts_induction (P := fun z =>
    z.guards = 0) idle_empty (shifts_start s label) ?_ hempty
  intro z z' hz hidle hshift hnone
  exact (Yard.guards_shift hz hidle hshift).trans hnone

/-- **Pauses exclude each other and everybody else.**  In the course of a run in which whoever stops
a world names itself as initiator, an engine has at most one guard.  From the return of the call to
the end of the pause the threads that were attached stand still, but for the initiator, and no new
one runs; the call has counted them. -/
theorem excludes_after (s : EngineSpec) (label : String)
    (moves : List Move) (h : (start s label).FaithfulRun moves) :
    (∀ e, (start s label).guards e = 0) ∧ ((start s label).after moves).Excludes := by
  refine ⟨fun e => ?_, excludes_of_lawful (lawful_after s label h)⟩
  rw [guards_eq, guards_start]
  exact Multiset.count_zero e

def parkMoves : List Move := stopMoves ++ given 1 4 .safepoint 3

/-- While the world stands still, a third thread attaches, and the suspension of the second one
ends. -/
def lateMoves : List Move :=
  .step 0 :: given 2 5 (.attach "gc" "late") 8 ++ given 0 6 (.requestResume "gc" 2) 8 ++
    [.step 1, .step 2]

/-- The call returns with one thread, and then everybody but the initiator stands still, the third
thread too. -/
theorem excludes_late : (start standardEngine "gc").FaithfulRun parkMoves ∧
    ((start standardEngine "gc").after parkMoves).Returns 0 0 (some 1) 1 ∧
    ((((start standardEngine "gc").after parkMoves).move (.step 0)).after lateMoves).StandStill 0
    (some 1) [1, 2] ∧ (((((start standardEngine "gc").after parkMoves).move (.step 0)).after
      lateMoves).engines[0]?).map (·.registry.ids) = some [1, 2, 3] := by
  have hfaithful : (start standardEngine "gc").FaithfulRun parkMoves := by decide +kernel
  have hreturns : ((start standardEngine "gc").after parkMoves).Returns 0 0 (some 1) 1 := by
    have hcall : ((start standardEngine "gc").after parkMoves).callOf 0 =
        some (0, .awaitStops (some 1)) := by
      decide +kernel
    have hsection : ((((start standardEngine "gc").after parkMoves).engines[0]?).bind fun x =>
          (x.registry.step 0 (((start standardEngine "gc").after parkMoves).isExpired 0)
          (.awaitStops (some 1))).map Prod.snd) = some (.answered (.count 1)) := by decide +kernel
    obtain ⟨x, hx, hstep⟩ := Option.bind_eq_some_iff.mp hsection
    obtain ⟨⟨r, p⟩, hr, rfl⟩ := Option.map_eq_some_iff.mp hstep
    exact ⟨_, x, r, .inr rfl, hcall, hx, hr⟩
  obtain ⟨-, -, -, x, hx, -, hstill⟩ :=
    (excludes_after standardEngine "gc" parkMoves hfaithful).2.returns 0 0 (some 1) 1 hreturns
  have hids : ((((start standardEngine "gc").after parkMoves).move (.step 0)).engines[0]?).map
      (·.registry.ids) = some [1, 2] := by decide +kernel
  rw [hx] at hids
  have hfirst : x.registry.ids = [1, 2] := Option.some.inj hids
  rw [hfirst] at hstill
  have hguards : ∀ n ≤ lateMoves.length, ((((start standardEngine "gc").after parkMoves).move
        (.step 0)).after (lateMoves.take n)).guards 0 ≠ 0 := by
    decide +kernel
  refine ⟨hfaithful, hreturns, ?_, by decide +kernel⟩
  refine hstill lateMoves (by decide +kernel) fun n => ?_
  rcases Nat.le_total n lateMoves.length with hn | hn
  · exact hguards n hn
  · have hall := hguards lateMoves.length le_rfl
    rwa [List.take_length, ← List.take_of_length_le hn] at hall

end Exclusion

end World

end ManagedHeap
