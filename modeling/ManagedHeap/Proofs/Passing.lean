import ManagedHeap.Proofs.ThreadSteps
import ManagedHeap.Proofs.Finalizers
import ManagedHeap.Proofs.Handover

/-!
# Steps pass on what threads keep

**Input.**  A lawful world and a step of one of its threads.

**Algorithm.**  The thread takes its next task.  If that is a section of a registry, the section is
performed.  Otherwise the thread takes over what the last call gave it, passes on what it keeps, and
goes on by shifts.

**Results.**  `World.turn_of_step`: every step is a turn of these two kinds.  Turns keep a world
lawful (`World.Turn.lawful`).
-/

namespace ManagedHeap

namespace Station

variable {F : Prop} {x x' : Station} {n e k : Nat} {task : Task} {rest : List Task}

/-- A thread has taken its next task and keeps what it kept, but for a number that it gives up. -/
structure Passes (F : Prop) (n : Nat) (x x' : Station) : Prop where
  orderly : Orderly F n x'.badge x'.tasks
  idle : expects x'.tasks = none
  held : x'.held = none ∨ x'.held = x.held ∧ expects x.tasks ≠ some .exit
  guards : x'.guards = x.guards
  awaits : x'.awaits = x.awaits

section Keeping

theorem guards_of_idle (h : expects x.tasks = none) :
    x.guards = ↑x.worlds + ↑(x.tasks.flatMap Task.guards) := by
  unfold guards
  rw [h, granted_none, Multiset.coe_nil, add_zero]

theorem guards_of_next (htasks : x.tasks = task :: rest) (h : task.guards = []) :
    x.guards = ↑x.worlds + ↑(rest.flatMap Task.guards) + ↑(granted task.takes x.reply) := by
  unfold guards
  rw [htasks, List.flatMap_cons, h]
  rfl

theorem awaits_of_next (htasks : x.tasks = task :: rest) (h : task.awaits = []) :
    x.awaits = rest.flatMap Task.awaits := by
  unfold awaits
  rw [htasks, List.flatMap_cons, h, List.nil_append]

theorem granted_of_ne_count (h : ∀ k, r ≠ .count k) : granted (some (.world e)) r = [] := by
  cases r with
  | count k => exact (h k rfl).elim
  | _ => rfl

theorem held_of_world (h : expects x.tasks = some (.world e)) : x.held = x.badge :=
  held_of_expects fun k hk => by
    rw [h] at hk
    cases hk

end Keeping

section Passing

/-- Tasks that neither give nor take nor keep anything. -/
structure IsPlain (task : Task) : Prop where
  takes : task.takes = none
  gives : task.gives = none
  guards : task.guards = []
  awaits : task.awaits = []

theorem isPlain_of_isOrdinary (h : task.isOrdinary = true) : IsPlain task :=
  ⟨Task.takes_of_isOrdinary h, Task.gives_of_isOrdinary h, Task.guards_of_isOrdinary h,
    Task.awaits_of_isOrdinary h⟩

theorem passes_take (htasks : x.tasks = task :: rest)
    (horderly : Orderly F n x.badge (task :: rest)) (htask : IsPlain task) :
    x.Passes F n { x with tasks := rest } := by
  have hidle : expects x.tasks = none := by rw [htasks]; exact htask.takes
  have hidle' : expects rest = none := horderly.2.1.trans htask.gives
  refine ⟨horderly.2.2, hidle', .inr ⟨?_, by simp [hidle]⟩, ?_,
    (awaits_of_next htasks htask.awaits).symm⟩
  · rw [held_of_idle hidle, held_of_idle hidle']
  · rw [guards_of_idle hidle', guards_of_next htasks htask.guards, htask.takes, granted_none,
      Multiset.coe_nil, add_zero]

/-- The threads stand still, and the collector passes the pause on to the task that ends it. -/
theorem passes_pause (tasks : List Task) (htasks : x.tasks = .pause e cycle reason :: rest)
    (horderly : Orderly F n x.badge (.pause e cycle reason :: rest))
    (hreply : x.reply = .count k) (hordinary : tasks.all Task.isOrdinary = true) :
    x.Passes F n { x with tasks := .registry e .releaseWorld :: (tasks ++ rest) } := by
  obtain ⟨-, hidle, hrest⟩ := horderly
  have hworld : expects x.tasks = some (.world e) := by rw [htasks]; rfl
  refine ⟨⟨trivial, expects_append hordinary hidle, hrest.append hordinary hidle⟩, rfl,
    .inr ⟨?_, ?_⟩, ?_, ?_⟩
  · rw [held_of_idle rfl, held_of_world hworld]
  · rw [hworld]
    nofun
  · rw [guards_of_idle rfl, guards_of_next htasks rfl, hreply]
    dsimp only
    rw [List.flatMap_cons, List.flatMap_append, guards_of_ordinary hordinary]
    show (↑x.worlds + ↑(e :: rest.flatMap Task.guards) : Multiset Nat) =
      ↑x.worlds + ↑(rest.flatMap Task.guards) + ↑[e]
    rw [← Multiset.cons_coe, Multiset.add_cons, Multiset.coe_singleton, ← Multiset.cons_zero,
      Multiset.add_cons, add_zero]
  · rw [awaits_of_next htasks rfl]
    unfold awaits
    dsimp only
    rw [List.flatMap_cons, List.flatMap_append, awaits_of_ordinary hordinary]
    rfl

theorem passes_failed (htakes : task.takes = some (.world e)) (htasks : x.tasks = task :: rest)
    (horderly : Orderly F n x.badge (task :: rest)) (he : e < n)
    (hreply : ∀ k, x.reply ≠ .count k) : x.Passes F n { x with tasks := rest } := by
  obtain ⟨-, hgives, hguards, hawaits⟩ := Task.of_takes_world (F := F) htakes he x.badge rest
  obtain ⟨-, hidle, hrest⟩ := horderly
  rw [hgives] at hidle
  have hworld : expects x.tasks = some (.world e) := by rw [htasks]; exact htakes
  refine ⟨hrest, hidle, .inr ⟨?_, ?_⟩, ?_, (awaits_of_next htasks hawaits).symm⟩
  · rw [held_of_idle hidle, held_of_world hworld]
  · rw [hworld]
    nofun
  · rw [guards_of_idle hidle, guards_of_next htasks hguards, htakes, granted_of_ne_count hreply,
      Multiset.coe_nil, add_zero]

theorem passes_worldStopped (htasks : x.tasks = .finish (.worldStopped e) :: rest)
    (horderly : Orderly F n x.badge (.finish (.worldStopped e) :: rest))
    (hreply : x.reply = .count k) :
    x.Passes F n { x with worlds := e :: x.worlds, tasks := rest } := by
  obtain ⟨-, hidle, hrest⟩ := horderly
  have hworld : expects x.tasks = some (.world e) := by rw [htasks]; rfl
  refine ⟨hrest, hidle, .inr ⟨?_, ?_⟩, ?_, (awaits_of_next htasks rfl).symm⟩
  · rw [held_of_idle hidle, held_of_world hworld]
  · rw [hworld]
    nofun
  · rw [guards_of_idle hidle, guards_of_next htasks rfl, hreply]
    show (↑(e :: x.worlds) + ↑(rest.flatMap Task.guards) : Multiset Nat) =
      ↑x.worlds + ↑(rest.flatMap Task.guards) + ↑[e]
    rw [← Multiset.cons_coe, Multiset.cons_add, Multiset.coe_singleton, ← Multiset.cons_zero,
      Multiset.add_cons, add_zero]

theorem passes_adopt (htasks : x.tasks = .adopt e foreign :: rest)
    (horderly : Orderly F n x.badge (.adopt e foreign :: rest)) (hreply : x.reply = .count k) :
    x.Passes F n { x with badge := some ⟨e, k⟩, tasks := rest } := by
  obtain ⟨⟨-, -, hrest⟩, hidle, -⟩ := horderly
  have hbadge : expects x.tasks = some (.badge e) := by rw [htasks]; rfl
  refine ⟨orderly_of_ordinary hrest, hidle, .inr ⟨?_, ?_⟩, ?_, (awaits_of_next htasks rfl).symm⟩
  · rw [held_of_idle hidle]
    unfold held
    rw [hbadge, hreply]
  · rw [hbadge]
    nofun
  · rw [guards_of_idle hidle, guards_of_next htasks rfl]
    exact (add_zero _).symm

theorem passes_refused (htasks : x.tasks = .adopt e foreign :: rest)
    (horderly : Orderly F n x.badge (.adopt e foreign :: rest)) :
    x.Passes F n { x with tasks := rest } := by
  obtain ⟨⟨-, hnone, hrest⟩, hidle, -⟩ := horderly
  refine ⟨orderly_of_ordinary hrest, hidle, .inl ?_, ?_, (awaits_of_next htasks rfl).symm⟩
  · rw [held_of_idle hidle]
    exact hnone
  · rw [guards_of_idle hidle, guards_of_next htasks rfl]
    exact (add_zero _).symm

theorem passes_forget (htasks : x.tasks = .forget :: rest)
    (horderly : Orderly F n x.badge (.forget :: rest)) :
    x.Passes F n { x with badge := none, tasks := rest } := by
  obtain ⟨hrest, hidle, -⟩ := horderly
  refine ⟨orderly_of_ordinary hrest, hidle, .inl (held_of_idle hidle), ?_,
    (awaits_of_next htasks rfl).symm⟩
  rw [guards_of_idle hidle, guards_of_next htasks rfl]
  exact (add_zero _).symm

theorem passes_assign (htasks : x.tasks = []) (i : Instruction) :
    x.Passes F n { x with tasks := [.perform i] } := by
  have hidle : expects x.tasks = none := by rw [htasks]; rfl
  refine ⟨⟨rfl, rfl, trivial⟩, rfl, .inr ⟨?_, by simp [hidle]⟩, ?_, ?_⟩
  · rw [held_of_idle hidle, held_of_idle rfl]
  · rw [guards_of_idle hidle, guards_of_idle rfl, htasks]
    rfl
  · unfold awaits
    rw [htasks]
    rfl

end Passing

end Station

/-- What a step of a thread does to a world as registries see it. -/
inductive World.Turn (F : Prop) (t : Nat) (w w' : World) : Prop
  /-- The thread performs a section of a call on a registry. -/
  | operates {x : Thread} {e : Nat} {op : Operation} {rest : List Task}
      {a : Runtime} {r' : Registry} {p : Progress} (hx : w.threads[t]? = some x)
      (htasks : x.tasks = .registry e op :: rest) (ha : w.engines[e]? = some a)
      (hstep : a.registry.step t (w.isExpired t) op = some (r', p))
      (hyard : w'.yard = w.yard.operate t e (x.station.advance e rest p) r')
  /-- The thread passes on what it keeps, and goes on by shifts. -/
  | goesOn {x : Thread} {x' : Station} (hx : w.threads[t]? = some x)
      (hpasses : x.station.Passes F w.engines.size x')
      (hs : Relation.ReflTransGen (Shift F t) (w.yard.modify t fun _ => x') w'.yard)

namespace Yard

variable {F : Prop} {y : Yard} {t : Nat} {x x' : Station}

theorem Lawful.pass (h : y.Lawful F) (hx : y.stations[t]? = some x)
    (hpasses : x.Passes F y.registries.size x') : (y.modify t fun _ => x').Lawful F :=
  h.replace hx hpasses.orderly hpasses.held hpasses.guards hpasses.awaits

theorem idle_pass (hpasses : x.Passes F n x') : (y.modify t fun _ => x').Idle t := by
  intro z hz
  rcases getElem?_modify hz with ⟨-, rfl⟩ | ⟨hne, -⟩
  · exact hpasses.idle
  · exact (hne rfl).elim

end Yard

namespace World

variable {F : Prop} {w w₁ w' : World} {t e : Nat} {x : Thread} {task : Task} {rest : List Task}

section Turning

theorem isExpired_take (rest : List Task) : (w.take t rest).isExpired t = w.isExpired t := by
  cases hx : w.threads[t]? with
  | none => simp [isExpired, take, modifyThread, Array.getElem?_modify, hx]
  | some x =>
    unfold isExpired
    rw [threads_take hx, hx]

theorem registry_of_engine (ha : w.engines[e]? = some a) :
    w.yard.registries[e]? = some a.registry := by
  rw [getElem?_registries, ha]
  rfl

theorem Turn.lawful (hl : w.yard.Lawful F) (h : Turn F t w w') : w'.yard.Lawful F := by
  cases h with
  | operates hx htasks ha hstep hyard =>
    rw [hyard]
    exact hl.operate (station_of_thread hx) (registry_of_engine ha) htasks
      (Registry.section_of_step hstep)
  | goesOn hx hpasses hs =>
    rw [← size_registries] at hpasses
    exact (hl.pass (station_of_thread hx) hpasses).shifts (Yard.idle_pass hpasses) hs

theorem Turn.andThen (h : Turn F t w w₁) (he : w'.yard = w₁.yard) : Turn F t w w' := by
  cases h with
  | operates hx htasks ha hstep hyard => exact .operates hx htasks ha hstep (he.trans hyard)
  | goesOn hx hpasses hs => exact .goesOn hx hpasses (he ▸ hs)

variable (hx : w.threads[t]? = some x)

include hx

theorem actor_of_thread : w.crew.actors[t]? = some x.actor := by
  rw [getElem?_actors, hx]
  rfl

theorem yard_of_crew (hcrew : w'.crew = (w.crew.take t rest).modify t f)
    (hf : (f { x.actor with tasks := rest }).station = x') :
    w'.yard = w.yard.modify t fun _ => x' := by
  rw [← yard_crew, hcrew, ← yard_crew, Crew.modify_comp]
  exact Crew.yard_modify (actor_of_thread hx) hf

theorem turn_of_crew (hpasses : x.station.Passes F w.engines.size x₁)
    (h : Station.Rearranges F w.engines.size x₁ x')
    (hcrew : w'.crew = (w.crew.take t rest).modify t f)
    (hf : (f { x.actor with tasks := rest }).station = x') : Turn F t w w' := by
  refine .goesOn hx hpasses ?_
  have hx₁ : (w.yard.modify t fun _ => x₁).stations[t]? = some x₁ := by
    rw [Yard.modify, Array.getElem?_modify, if_pos rfl, station_of_thread hx]
    rfl
  have hshifts := shifts_station hx₁ (size_registries ▸ h)
  have htwice : (w.yard.modify t fun _ => x₁).modify t (fun _ => x') = w.yard.modify t fun _ =>
      x' := by
    unfold Yard.modify
    rw [modify_modify]
  rw [htwice] at hshifts
  rwa [yard_of_crew hx hcrew hf]

omit hx in
theorem runOperation_of_missing (h : w.engines[e]? = none) : w.runOperation t e op = some w := by
  unfold runOperation
  rw [h]

theorem exists_section_of_runOperation (ha : w.engines[e]? = some a)
    (h : (w.take t rest).runOperation t e op = some w') :
    ∃ r' p, a.registry.step t (w.isExpired t) op = some (r', p) ∧
    w'.yard = w.yard.operate t e (x.station.advance e rest p) r' := by
  unfold runOperation at h
  rw [show (w.take t rest).engines[e]? = some a from ha] at h
  dsimp only at h
  rw [isExpired_take] at h
  have hyard : ∀ {w₁ : World} {x'} {r'} f,
      w₁.crew = ((w.crew.take t rest).modifyRegistry e fun _ => r').modify t f →
        (f { x.actor with tasks := rest }).station = x' → w₁.yard = w.yard.operate t e x' r' := by
    intro w₁ x' r' f hw₁ hf
    have hactor : (w.crew.modifyRegistry e fun _ => r').actors[t]? = some x.actor :=
      actor_of_thread hx
    rw [← yard_crew, hw₁, ← yard_crew]
    show (((w.crew.modifyRegistry e fun _ => r').modify t _).modify t f).yard = _
    rw [Crew.modify_comp, Crew.yard_modify hactor hf]
    rfl
  have hpopped : ∀ r' : Registry, ((w.take t rest).modifyRegistry e fun _ => r').crew =
      (w.crew.take t rest).modifyRegistry e fun _ => r' :=
    fun r' => by rw [crew_modifyRegistry, crew_take]
  split at h
  · cases h
  · next r' p hstep =>
      refine ⟨r', p, hstep, ?_⟩
      cases p with
      | finished =>
        cases h
        refine hyard (fun z => z) ?_ rfl
        rw [hpopped, Crew.modify_self]
      | answered v =>
        cases h
        refine hyard (Actor.answer v) ?_ rfl
        rw [crew_answer, hpopped]
      | continues op' =>
        cases h
        refine hyard (Actor.push [.registry e op']) ?_ rfl
        rw [crew_push, hpopped]

omit hx in
/-- Whether an instruction of a thread, if it stops a world, names as initiator the thread itself if
it is attached and nobody otherwise. -/
def Faithful (w : World) (t : Nat) : Instruction → Prop
  | .stopWorld label initiator => ∀ e, w.names.engines.get? label = some e →
      initiator = w.currentId t e
  | _ => True

theorem turn_stopWorld (htasks : x.tasks = .perform (.stopWorld label i) :: rest)
    (horderly : Orderly F w.engines.size x.station.badge (.perform (.stopWorld label i) :: rest))
    (hfaithful : F → w.Faithful t (.stopWorld label i)) :
    Turn F t w ((w.take t rest).perform t (.stopWorld label i)) := by
  have hpasses := Station.passes_take htasks horderly ⟨rfl, rfl, rfl, rfl⟩
  simp only [perform, withEngine]
  have hrefused : ∀ r, Turn F t w ((w.take t rest).refuse t r) := fun r => turn_of_crew hx hpasses
      .refl ((crew_refuse r).trans ((crew_take rest).trans Crew.modify_self.symm)) rfl
  split
  · exact hrefused _
  · next e he =>
      split
      · exact hrefused _
      · next ha =>
          have hstops : Station.Rearranges F w.engines.size { x.station with tasks := rest } _ :=
            .single (.stop (Array.getElem?_eq_some_iff.mp ha).1 (fun hF =>
                (hfaithful hF e he).trans (currentId_eq hx))
                (show (Task.finish (.worldStopped e)).takes = some (.world e) from rfl))
          exact turn_of_crew hx hpasses hstops ((crew_push _).trans (by rw [crew_take])) rfl

/-- **Whatever a thread does but to stop a world or to call a registry goes on by shifts**, after it
has taken over what its last call gave. -/
theorem turn_of_act (htasks : x.tasks = task :: rest)
    (horderly : Orderly F w.engines.size x.station.badge (task :: rest))
    (hregistry : ∀ e op, task ≠ .registry e op)
    (hstop : ∀ label i, task ≠ .perform (.stopWorld label i))
    (hact : Crew.Act t { x.actor with tasks := rest } (w.crew.take t rest) task w'.crew) :
    Turn F t w w' := by
  have hpopped : (w.crew.take t rest).actors[t]? = some { x.actor with tasks := rest } :=
    Crew.getElem?_modify_self (actor_of_thread hx)
  by_cases htask : task.isOrdinary = true ∨ ∃ i, task = .perform i
  · have hplain : Station.IsPlain task := by
      rcases htask with ho | ⟨i, rfl⟩
      · exact Station.isPlain_of_isOrdinary ho
      · exact ⟨rfl, rfl, rfl, rfl⟩
    have hempty : task.isOrdinary = true ∨ (∃ i, task = .perform i) ∧ rest = [] := by
      refine htask.imp_right ?_
      rintro ⟨i, rfl⟩
      exact ⟨⟨i, rfl⟩, horderly.1⟩
    have htaken : (w.crew.take t rest).yard =
        w.yard.modify t fun _ => { x.station with tasks := rest } := by
      rw [← yard_crew]
      exact Crew.yard_modify (actor_of_thread hx) rfl
    refine .goesOn hx (Station.passes_take htasks horderly hplain) ?_
    rw [← htaken, ← yard_crew]
    exact hact.shifts hpopped hempty hregistry hstop
  · obtain ⟨hodd, hperform⟩ := not_or.mp htask
    have hsuits := horderly.1
    have hpushed : ∀ {x₁ front}, front.all Task.isCommon = true →
        Station.Rearranges F w.engines.size x₁ { x₁ with tasks := front ++ x₁.tasks } :=
      fun hfront => Station.Rearranges.push .refl (Actor.isOrdinary_of_isCommon hfront)
    generalize hc : w'.crew = c' at hact
    cases hact with
    | idles _ hgoes =>
      cases hgoes with
      | goesOn hplain => exact (htask hplain).elim
      | begins => exact (hodd rfl).elim
      | pauses hreply hfront =>
        exact turn_of_crew hx (Station.passes_pause _ htasks horderly hreply
          (Actor.isOrdinary_of_isCommon hfront)) .refl hc rfl
      | @fails e _ front _ hworld hreply hfront =>
        have hfailed : task.takes = some (.world e) → e < w.engines.size → Turn F t w w' :=
          fun htakes he => turn_of_crew hx (Station.passes_failed htakes htasks horderly he
              (hreply (by simpa [Crew.modify, crew] using he))) (hpushed hfront) hc rfl
        rcases hworld with ⟨cycle, reason, rfl⟩ | rfl | ⟨e', rfl⟩
        · exact hfailed rfl hsuits
        · exact hfailed rfl hsuits
        · exact (hodd hsuits).elim
      | @stands e k _ front hworld hreply hfront =>
        rcases hworld with rfl | ⟨e', rfl⟩
        · exact turn_of_crew hx (Station.passes_worldStopped htasks horderly hreply)
            (hpushed hfront) hc rfl
        · exact (hodd hsuits).elim
      | stops | releases => exact (hperform ⟨_, rfl⟩).elim
    | operates | misses => exact (hregistry _ _ rfl).elim
    | adopts hreply =>
      exact turn_of_crew hx (Station.passes_adopt htasks horderly hreply)
        (hpushed (show [Task.checkpoint _].all Task.isCommon = true from rfl)) hc rfl
    | stays =>
      exact turn_of_crew hx (Station.passes_refused htasks horderly) .refl
        (hc.trans Crew.modify_self.symm) rfl
    | forgets => exact turn_of_crew hx (Station.passes_forget htasks horderly) .refl hc rfl
    | polls _ _ _ _ _ hplain => exact (htask hplain).elim
    | enters | leaves | joins | quits | clearsFlag | opens => exact (hperform ⟨_, rfl⟩).elim
    | blocks | nests => exact (hodd hsuits).elim
    | _ => exact (hodd rfl).elim

omit hx

/-- Whoever has to call the registry of an engine finds it, unless the call is an ordinary one. -/
theorem exists_engine_of_orderly (hl : w.yard.Lawful F) (hx : w.threads[t]? = some x)
    (htasks : x.tasks = .registry e op :: rest) (hop : op.isOrdinary = false) :
    ∃ a, w.engines[e]? = some a := by
  have hstation := station_of_thread hx
  have horderly := hl.orderly t x.station hstation
  rw [size_registries, show x.station.tasks = .registry e op :: rest from htasks] at horderly
  have hidle : expects x.station.tasks = none := by
    rw [show x.station.tasks = .registry e op :: rest from htasks]
    rfl
  have hlt : e < w.engines.size → ∃ a, w.engines[e]? = some a :=
    fun he => ⟨_, Array.getElem?_eq_getElem he⟩
  have hregistry : ∀ r, w.yard.registries[e]? = some r → ∃ a, w.engines[e]? = some a := by
    intro r hr
    rw [getElem?_registries] at hr
    obtain ⟨a, ha, -⟩ := Option.map_eq_some_iff.mp hr
    exact ⟨a, ha⟩
  cases op with
  | stopWorld i | awaitStops i | attach name => exact hlt horderly.1.1
  | releaseWorld =>
    have hmem : e ∈ x.station.tokens := by
      refine Multiset.mem_add.mpr (.inl ?_)
      rw [Station.guards_of_idle hidle,
        show x.station.tasks = .registry e .releaseWorld :: rest from htasks]
      exact Multiset.mem_add.mpr (.inr (Multiset.mem_coe.mpr (List.mem_cons_self ..)))
    obtain ⟨r, hr, -⟩ := hl.exists_of_mem_tokens (Yard.mem_tokens hstation hmem)
    exact hregistry r hr
  | detach id =>
    obtain ⟨r, hr, -⟩ :=
      hl.issued t x.station ⟨e, id⟩ hstation ((Station.held_of_idle hidle).trans horderly.1)
    exact hregistry r hr
  | _ => cases hop

/-- **A step of a lawful world is a section of a registry, or goes on by shifts.** -/
theorem turn_of_step (hl : w.yard.Lawful F)
    (hfaithful : ∀ i, w.nextTask t = some (.perform i) → F → w.Faithful t i)
    (h : w.step t = some w') : Turn F t w w' := by
  obtain ⟨y, task', rest', hy, htasks', hact⟩ := act_step h
  obtain ⟨x, task, rest, after, hx, htasks, hrun, rfl⟩ := exists_task_of_step h
  obtain rfl : y = x.actor := Option.some.inj (hy.symm.trans (actor_of_thread hx))
  obtain ⟨rfl, rfl⟩ : task' = task ∧ rest' = rest := List.cons.inj (htasks'.symm.trans htasks)
  have hexpired : (after.modifyThread t fun z => { z with expired := false }).crew = after.crew :=
    crew_modifyThread_of_actor fun _ => rfl
  rw [hexpired] at hact
  suffices Turn F t w after from this.andThen (by rw [← yard_crew, hexpired, yard_crew])
  have horderly := hl.orderly t x.station (station_of_thread hx)
  rw [size_registries, show x.station.tasks = task' :: rest' from htasks] at horderly
  by_cases hregistry : ∃ e op, task' = .registry e op
  · obtain ⟨e, op, rfl⟩ := hregistry
    cases ha : w.engines[e]? with
    | some a =>
      obtain ⟨r', p, hstep, hyard⟩ := exists_section_of_runOperation hx ha hrun
      exact .operates hx htasks ha hstep hyard
    | none =>
      -- an ordinary call on an engine that is not there does nothing
      have hordinary : op.isOrdinary = true := by
        by_contra hno
        obtain ⟨a, ha'⟩ := exists_engine_of_orderly hl hx htasks (Bool.eq_false_iff.mpr hno)
        rw [ha] at ha'
        cases ha'
      have hafter : some after = some (w.take t rest') :=
        hrun.symm.trans (runOperation_of_missing ha)
      cases hafter
      refine turn_of_crew (f := fun z => z) hx
        (Station.passes_take htasks horderly (Station.isPlain_of_isOrdinary hordinary)) .refl ?_ rfl
      rw [crew_modifyThread (g := fun z => { z with tasks := rest' }) fun _ => rfl,
        Crew.modify_self]
  · by_cases hstop : ∃ label i, task' = .perform (.stopWorld label i)
    · obtain ⟨label, i, rfl⟩ := hstop
      cases hrun
      refine turn_stopWorld hx htasks horderly (hfaithful _ ?_)
      unfold nextTask
      rw [hx, Option.bind_some, htasks]
      rfl
    · exact turn_of_act hx htasks horderly (fun e op he => hregistry ⟨e, op, he⟩)
        (fun label i hi => hstop ⟨label, i, hi⟩) hact

end Turning

end World

end ManagedHeap
