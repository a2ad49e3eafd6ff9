import ManagedHeap.Proofs.Registry
import ManagedHeap.Proofs.WorldStopSteps

/-!
# Pauses and numbers have one keeper

**Input.**  A world as registries see it.

**Algorithm.**  What a call gives is taken over by the very next task of its thread, so the stack of
a thread says what the value of its last call stands for.  The keepers of a pause are counted over
all threads.

**Results.**  `Yard.Lawful`: registries are sound, a number has at most one keeper, who is attached
under it, and the world of an engine stands still exactly if the pause has a keeper, and then it has
one.  Shifts keep this (`Yard.Lawful.shifts`).
-/

namespace ManagedHeap

section Stacks

def expects (tasks : List Task) : Option Grant := tasks.head?.bind Task.takes

/-- Whether a task suits a thread with this number and these tasks behind it; there are `n` engines,
and with `F` whoever stops a world names itself as initiator. -/
def Task.Suits (F : Prop) (n : Nat) (badge : Option Badge) (rest : List Task) : Task → Prop
  | .registry e (.stopWorld i) | .registry e (.awaitStops i) => e < n ∧ (F → i = Badge.idIn badge e)
  | .registry e (.attach _) => e < n ∧ badge = none
  | .registry e (.detach id) => badge = some ⟨e, id⟩
  | .pause e .. | .finish (.worldStopped e) => e < n
  | .adopt e _ => e < n ∧ badge = none ∧ rest.all Task.isOrdinary = true
  | .forget => rest.all Task.isOrdinary = true
  | .perform _ => rest = []
  | .registry _ .releaseWorld => True
  | task => task.isOrdinary = true

/-- Whether every task of a stack suits its thread, and gives what the next one takes. -/
def Orderly (F : Prop) (n : Nat) (badge : Option Badge) : List Task → Prop
  | [] => True
  | task :: rest => task.Suits F n badge rest ∧ expects rest = task.gives ∧ Orderly F n badge rest

def Task.guards : Task → List Nat
  | .registry e .releaseWorld => [e]
  | _ => []

/-- The pauses that wait for threads, with their initiators. -/
def Task.awaits : Task → List (Nat × Option ThreadId)
  | .registry e (.awaitStops i) => [(e, i)]
  | _ => []

variable {F : Prop} {n : Nat} {badge : Option Badge} {task : Task} {tasks rest : List Task}
  (h : task.isOrdinary = true)

include h

theorem Task.takes_of_isOrdinary : task.takes = none := by
  unfold takes
  split
  · cases h
  · cases h
  · cases h
  · cases h
  · rfl

theorem Task.gives_of_isOrdinary : task.gives = none := by
  unfold gives
  split
  · cases h
  · cases h
  · cases h
  · cases h
  · rfl

theorem Task.guards_of_isOrdinary : task.guards = [] := by
  unfold guards
  split
  · cases h
  · rfl

theorem Task.awaits_of_isOrdinary : task.awaits = [] := by
  unfold awaits
  split
  · cases h
  · rfl

theorem Task.suits_of_isOrdinary : task.Suits F n badge rest := by
  unfold Suits
  split
  all_goals first | exact h | cases h

omit h

theorem Task.of_takes_world (h : task.takes = some (.world e)) (he : e < n) (badge : Option Badge)
    (rest : List Task) : task.Suits F n badge rest ∧ task.gives = none ∧ task.guards = [] ∧
    task.awaits = [] := by
  unfold takes at h
  split at h <;> cases h
  · exact ⟨he, rfl, rfl, rfl⟩
  · exact ⟨he, rfl, rfl, rfl⟩

theorem Task.Suits.mono (hnm : n ≤ m) (h : task.Suits F n badge rest) :
    task.Suits F m badge rest := by
  unfold Suits at h ⊢
  split at h
  · exact ⟨Nat.lt_of_lt_of_le h.1 hnm, h.2⟩
  · exact ⟨Nat.lt_of_lt_of_le h.1 hnm, h.2⟩
  · exact ⟨Nat.lt_of_lt_of_le h.1 hnm, h.2⟩
  · exact h
  · exact Nat.lt_of_lt_of_le h hnm
  · exact Nat.lt_of_lt_of_le h hnm
  · exact ⟨Nat.lt_of_lt_of_le h.1 hnm, h.2⟩
  · exact h
  · exact h
  · trivial
  · exact h

theorem Orderly.mono (hnm : n ≤ m) (h : Orderly F n badge tasks) : Orderly F m badge tasks := by
  induction tasks with
  | nil => trivial
  | cons task rest ih => exact ⟨h.1.mono hnm, h.2.1, ih h.2.2⟩

theorem expects_append (hfirst : tasks.all Task.isOrdinary = true) (hrest : expects rest = none) :
    expects (tasks ++ rest) = none := by
  cases tasks with
  | nil => exact hrest
  | cons task more =>
    have htask : task.isOrdinary = true := by
      rw [List.all_cons, Bool.and_eq_true] at hfirst
      exact hfirst.1
    exact Task.takes_of_isOrdinary htask

theorem head_of_expects_exit (h : expects tasks = some .exit) : tasks.head? = some .forget := by
  obtain ⟨task, htask, htakes⟩ := Option.bind_eq_some_iff.mp h
  rw [htask]
  unfold Task.takes at htakes
  split at htakes
  all_goals first | rfl | cases htakes

theorem Orderly.append (hfirst : tasks.all Task.isOrdinary = true) (hidle : expects rest = none)
    (hrest : Orderly F n badge rest) : Orderly F n badge (tasks ++ rest) := by
  induction tasks with
  | nil => exact hrest
  | cons task more ih =>
    rw [List.all_cons, Bool.and_eq_true] at hfirst
    refine ⟨Task.suits_of_isOrdinary hfirst.1, ?_, ih hfirst.2⟩
    rw [Task.gives_of_isOrdinary hfirst.1]
    exact expects_append hfirst.2 hidle

theorem orderly_of_ordinary (h : tasks.all Task.isOrdinary = true) : Orderly F n badge tasks := by
  have happend : Orderly F n badge (tasks ++ []) := Orderly.append h rfl trivial
  rwa [List.append_nil] at happend

theorem guards_of_ordinary (h : tasks.all Task.isOrdinary = true) :
    tasks.flatMap Task.guards = [] :=
  List.flatMap_eq_nil_iff.mpr fun _ htask =>
    Task.guards_of_isOrdinary (List.all_eq_true.mp h _ htask)

theorem awaits_of_ordinary (h : tasks.all Task.isOrdinary = true) :
    tasks.flatMap Task.awaits = [] :=
  List.flatMap_eq_nil_iff.mpr fun _ htask =>
    Task.awaits_of_isOrdinary (List.all_eq_true.mp h _ htask)

end Stacks

namespace Station

/-- The pause that the value of a call stands for. -/
def granted : Option Grant → Reply → List Nat
  | some (.world e), .count _ => [e]
  | _, _ => []

/-- The number that a thread keeps: its own, or one that it is given and has not taken over. -/
def held (x : Station) : Option Badge :=
  match expects x.tasks, x.reply with
  | some (.badge e), .count id => some ⟨e, id⟩
  | _, _ => x.badge

/-- The pauses that a thread keeps: by stretches of its program, by tasks, and by the value of its
last call. -/
def guards (x : Station) : Multiset Nat :=
  ↑x.worlds + ↑(x.tasks.flatMap Task.guards) + ↑(granted (expects x.tasks) x.reply)

/-- The pauses for which a thread waits, with their initiators. -/
def awaits (x : Station) : List (Nat × Option ThreadId) := x.tasks.flatMap Task.awaits

def tokens (x : Station) : Multiset Nat := x.guards + ↑(x.awaits.map Prod.fst)

variable {F : Prop} {x x' : Station} {n : Nat}

theorem held_of_expects (h : ∀ e, expects x.tasks ≠ some (.badge e)) : x.held = x.badge := by
  unfold held
  split
  · next he _ => exact (h _ he).elim
  · rfl

theorem held_of_idle (h : expects x.tasks = none) : x.held = x.badge :=
  held_of_expects fun e he => by rw [h] at he; cases he

theorem held_of_badge (h : Orderly F n x.badge x.tasks) (hb : x.badge = some b) :
    x.held = some b := by
  rw [← hb]
  refine held_of_expects fun e he => ?_
  obtain ⟨task, htask, htakes⟩ := Option.bind_eq_some_iff.mp he
  obtain ⟨rest, hrest⟩ := List.head?_eq_some_iff.mp htask
  rw [hrest] at h
  unfold Task.takes at htakes
  split at htakes
  · cases htakes
  · cases htakes
  · cases hb.symm.trans h.1.2.1
  · cases htakes
  · cases htakes

theorem granted_none (r : Reply) : granted none r = [] := by
  unfold granted
  split <;> simp_all

/-- Whatever a thread does to its own station, it keeps what it kept. -/
structure Keeps (F : Prop) (n : Nat) (x x' : Station) : Prop where
  orderly : Orderly F n x'.badge x'.tasks
  idle : expects x'.tasks = none
  badge : x'.badge = x.badge
  guards : x'.guards = x.guards
  awaits : x'.awaits = x.awaits

theorem Alters.keeps (h : x.Alters F n x') (horderly : Orderly F n x.badge x.tasks)
    (hidle : expects x.tasks = none) : x.Keeps F n x' := by
  cases h with
  | push htasks =>
    have hexpects := expects_append htasks hidle
    refine ⟨horderly.append htasks hidle, hexpects, rfl, ?_, ?_⟩
    · unfold guards
      dsimp only
      rw [List.flatMap_append, guards_of_ordinary htasks, hexpects, hidle, granted_none,
        List.nil_append]
    · unfold awaits
      rw [List.flatMap_append, awaits_of_ordinary htasks, List.nil_append]
  | answer r =>
    refine ⟨horderly, hidle, rfl, ?_, rfl⟩
    unfold guards
    dsimp only
    rw [hidle, granted_none, granted_none]
  | @stop e i last he hi hlast =>
    obtain ⟨hsuits, hgives, hguards, hawaits⟩ := Task.of_takes_world hlast he x.badge x.tasks
    refine ⟨⟨⟨he, hi⟩, hlast, hsuits, ?_, horderly⟩, rfl, rfl, ?_, ?_⟩
    · rw [hidle, hgives]
    · unfold guards
      dsimp only
      rw [List.flatMap_cons, List.flatMap_cons, hguards, hidle, granted_none]
      rfl
    · unfold awaits
      dsimp only
      rw [List.flatMap_cons, List.flatMap_cons, hawaits]
      rfl
  | @release e rest tasks hworlds htasks =>
    have hexpects := expects_append htasks hidle
    refine ⟨⟨trivial, hexpects, horderly.append htasks hidle⟩, rfl, rfl, ?_, ?_⟩
    · unfold guards
      dsimp only
      rw [List.flatMap_cons, List.flatMap_append, guards_of_ordinary htasks, hidle, granted_none,
        hworlds]
      show (↑rest + ↑(e :: x.tasks.flatMap Task.guards) + ↑([] : List Nat) : Multiset Nat) = _
      rw [← Multiset.cons_coe, ← Multiset.cons_coe, Multiset.cons_add, Multiset.add_cons]
    · unfold awaits
      dsimp only
      rw [List.flatMap_cons, List.flatMap_append, awaits_of_ordinary htasks]
      rfl
  | @attach e name foreign he hbadge htasks =>
    refine ⟨⟨⟨he, hbadge⟩, rfl, ⟨he, hbadge, htasks⟩, hidle, horderly⟩, rfl, rfl, ?_, ?_⟩
    · unfold guards
      dsimp only
      rw [List.flatMap_cons, List.flatMap_cons, hidle, granted_none]
      rfl
    · unfold awaits
      rfl
  | @detach b hbadge htasks =>
    refine ⟨⟨hbadge, rfl, htasks, hidle, horderly⟩, rfl, rfl, ?_, ?_⟩
    · unfold guards
      dsimp only
      rw [List.flatMap_cons, List.flatMap_cons, hidle, granted_none]
      rfl
    · unfold awaits
      rfl

end Station

namespace Yard

def tokens (y : Yard) : Multiset Nat := total y.stations Station.tokens

def isStopped (y : Yard) (e : Nat) : Bool := (y.registries[e]?).any (·.worldStopped)

/-- Whether a thread, if it is there, has nothing to take over. -/
def Idle (y : Yard) (t : Nat) : Prop :=
  ∀ x : Station, y.stations[t]? = some x → expects x.tasks = none

/-- Pauses and numbers have one keeper, and with `F` registries are sound. -/
structure Lawful (F : Prop) (y : Yard) : Prop where
  soundly : F → ∀ (e : Nat) (r : Registry), y.registries[e]? = some r → r.Sound
  orderly : ∀ (t : Nat) (x : Station), y.stations[t]? = some x →
    Orderly F y.registries.size x.badge x.tasks
  /-- A number comes from its engine, which knows it until it is given back. -/
  issued : ∀ (t : Nat) (x : Station) (b : Badge), y.stations[t]? = some x → x.held = some b →
    ∃ r, y.registries[b.engine]? = some r ∧ b.id < r.nextId ∧
    (expects x.tasks ≠ some .exit → b.id ∈ r.ids)
  unique : ∀ (t u : Nat) (x z : Station) (b : Badge), y.stations[t]? = some x →
    y.stations[u]? = some z → x.held = some b → z.held = some b → t = u
  /-- A world stands still exactly if somebody keeps it so. -/
  counted : ∀ e, y.tokens.count e = if y.isStopped e then 1 else 0
  /-- Whoever waits for threads is the initiator. -/
  initiated : ∀ (t : Nat) (x : Station) (e : Nat) (i : Option ThreadId) (r : Registry),
    y.stations[t]? = some x → (e, i) ∈ x.awaits → y.registries[e]? = some r → r.initiator = i

variable {F : Prop} {y : Yard} {t e : Nat} {x x' : Station}

theorem getElem?_modify (h : (y.modify t fun _ => x').stations[u]? = some z) :
    u = t ∧ z = x' ∨ u ≠ t ∧ y.stations[u]? = some z := by
  simp only [modify, Array.getElem?_modify] at h
  split at h
  · next htu =>
      obtain ⟨_, _, hz⟩ := Option.map_eq_some_iff.mp h
      exact .inl ⟨htu.symm, hz.symm⟩
  · next htu => exact .inr ⟨Ne.symm htu, h⟩

theorem tokens_modify (hx : y.stations[t]? = some x) (h : x'.tokens = x.tokens) :
    (y.modify t fun _ => x').tokens = y.tokens := by
  obtain ⟨rest, hbefore, hafter⟩ := exists_total_modify hx (fun _ => x') Station.tokens
  unfold tokens
  rw [hbefore, modify, hafter, h]

theorem mem_tokens (hx : y.stations[t]? = some x) (h : e ∈ x.tokens) : e ∈ y.tokens :=
  mem_total.mpr ⟨x, Array.mem_of_getElem? hx, h⟩

theorem mem_tokens_of_awaits (hx : y.stations[t]? = some x) (h : (e, i) ∈ x.awaits) :
    e ∈ y.tokens :=
  mem_tokens hx (Multiset.mem_add.mpr (.inr (Multiset.mem_coe.mpr (List.mem_map_of_mem h))))

namespace Lawful

theorem sound (h : y.Lawful True) (e : Nat) (r : Registry) (hr : y.registries[e]? = some r) :
    r.Sound :=
  h.soundly trivial e r hr

variable (h : y.Lawful F)

include h

theorem exists_of_mem_tokens (he : e ∈ y.tokens) :
    ∃ r, y.registries[e]? = some r ∧ r.worldStopped = true := by
  have hpos : 0 < y.tokens.count e := Multiset.count_pos.mpr he
  rw [h.counted e] at hpos
  split at hpos
  · next hstopped =>
      unfold isStopped at hstopped
      cases hr : y.registries[e]? with
      | none =>
        rw [hr] at hstopped
        cases hstopped
      | some r =>
        rw [hr] at hstopped
        exact ⟨r, rfl, hstopped⟩
  · exact (Nat.lt_irrefl 0 hpos).elim

/-- Stations may change as long as none keeps a number or waits for a pause that it did not, and all
of them together keep the same pauses. -/
theorem of_stations
    (horderly : ∀ {k : Nat} {z}, xs[k]? = some z → Orderly F y.registries.size z.badge z.tasks)
    (hheld : ∀ {k : Nat} {z b}, xs[k]? = some z → z.held = some b → ∃ x, y.stations[k]? = some x ∧
      x.held = some b ∧ (expects z.tasks ≠ some .exit → expects x.tasks ≠ some .exit))
    (hawaits : ∀ {k : Nat} {z p}, xs[k]? = some z → p ∈ z.awaits → ∃ x, y.stations[k]? = some x ∧
      p ∈ x.awaits) (htokens : Yard.tokens { y with stations := xs } = y.tokens) :
    Lawful F { y with stations := xs } where
  soundly := h.soundly
  orderly _ _ hz := horderly hz
  issued k z b hz hb := by
    obtain ⟨x, hx, hb, hexit⟩ := hheld hz hb
    obtain ⟨r, hr, hlt, hmem⟩ := h.issued k x b hx hb
    exact ⟨r, hr, hlt, fun hz => hmem (hexit hz)⟩
  unique k l z z' b hz hz' hb hb' := by
    obtain ⟨x, hx, hb, -⟩ := hheld hz hb
    obtain ⟨x', hx', hb', -⟩ := hheld hz' hb'
    exact h.unique k l x x' b hx hx' hb hb'
  counted e := by
    rw [htokens]
    exact h.counted e
  initiated k z e i r hz hmem hr := by
    obtain ⟨x, hx, hmem⟩ := hawaits hz hmem
    exact h.initiated k x e i r hx hmem hr

/-- A station is replaced by one that keeps the same pauses, and the same number or none. -/
theorem replace (hx : y.stations[t]? = some x)
    (horderly : Orderly F y.registries.size x'.badge x'.tasks)
    (hheld : x'.held = none ∨ x'.held = x.held ∧ expects x.tasks ≠ some .exit)
    (hguards : x'.guards = x.guards) (hawaits : x'.awaits = x.awaits) :
    (y.modify t fun _ => x').Lawful F := by
  have htokens : x'.tokens = x.tokens := by rw [Station.tokens, hguards, hawaits, Station.tokens]
  refine h.of_stations (fun hz => ?_) (fun hz hb => ?_) (fun hz hmem =>
    ?_) (tokens_modify hx htokens) <;> rcases getElem?_modify hz with ⟨rfl, rfl⟩ | ⟨-, hz⟩
  · exact horderly
  · exact h.orderly _ _ hz
  · rcases hheld with hnone | ⟨hsame, hexit⟩
    · cases hnone.symm.trans hb
    · exact ⟨x, hx, hsame ▸ hb, fun _ => hexit⟩
  · exact ⟨_, hz, hb, id⟩
  · exact ⟨x, hx, hawaits ▸ hmem⟩
  · exact ⟨_, hz, hmem⟩

/-- The thread that acts does something to its own station. -/
theorem alter (hx : y.stations[t]? = some x) (hidle : expects x.tasks = none)
    (halters : x.Alters F y.registries.size x') : (y.modify t fun _ => x').Lawful F := by
  have hkeeps := halters.keeps (h.orderly t x hx) hidle
  refine h.replace hx hkeeps.orderly (.inr ⟨?_, ?_⟩) hkeeps.guards hkeeps.awaits
  · rw [Station.held_of_idle hkeeps.idle, Station.held_of_idle hidle, hkeeps.badge]
  · simp [hidle]

/-- Registries may change, and new ones may come, as long as keepers see no difference. -/
theorem of_registries (hsize : y.registries.size ≤ rs.size)
    (hsound : F → ∀ (k : Nat) r, rs[k]? = some r → r.Sound)
    (hthere : ∀ {k : Nat} {r}, y.registries[k]? = some r →
      ∃ r', rs[k]? = some r' ∧ r'.ids = r.ids ∧ r'.nextId = r.nextId ∧ r'.initiator = r.initiator)
    (hstopped : ∀ k, Yard.isStopped { y with registries := rs } k = y.isStopped k) :
    Lawful F { y with registries := rs } where
  soundly := hsound
  orderly t x hx := (h.orderly t x hx).mono hsize
  issued t x b hx hb := by
    obtain ⟨r, hr, hlt, hmem⟩ := h.issued t x b hx hb
    obtain ⟨r', hr', hids, hnext, -⟩ := hthere hr
    exact ⟨r', hr', by rwa [hnext], by rwa [hids]⟩
  unique := h.unique
  counted k := by
    rw [hstopped]
    exact h.counted k
  initiated t x k i r hx hmem hr := by
    -- somebody waits, so the registry was there before
    obtain ⟨r₀, hr₀, -⟩ := h.exists_of_mem_tokens (mem_tokens_of_awaits hx hmem)
    obtain ⟨r', hr', -, -, hinitiator⟩ := hthere hr₀
    cases hr.symm.trans hr'
    rw [hinitiator]
    exact h.initiated t x k i r₀ hx hmem hr₀

/-- A registry is replaced by a sound one that differs in nothing that keepers see. -/
theorem replaceRegistry (hsound : ∀ r, r.Sound → (f r).Sound) (hids : ∀ r, (f r).ids = r.ids)
    (hnext : ∀ r, (f r).nextId = r.nextId) (hstopped : ∀ r, (f r).worldStopped = r.worldStopped)
    (hinitiator : ∀ r, (f r).initiator = r.initiator) : (y.modifyRegistry e f).Lawful F := by
  refine h.of_registries Array.size_modify.ge (fun hF k r hr => ?_) (fun {k r} hr => ?_) fun k => ?_
  · rw [Array.getElem?_modify] at hr
    split at hr
    · obtain ⟨r₀, hr₀, rfl⟩ := Option.map_eq_some_iff.mp hr
      exact hsound r₀ (h.soundly hF k r₀ hr₀)
    · exact h.soundly hF k r hr
  · rw [Array.getElem?_modify, hr]
    split
    · exact ⟨f r, rfl, hids r, hnext r, hinitiator r⟩
    · exact ⟨r, rfl, rfl, rfl, rfl⟩
  · simp only [isStopped, Array.getElem?_modify]
    split
    · cases y.registries[k]? with
      | none => rfl
      | some r => exact hstopped r
    · rfl

/-- A note in the record of a thread that no registry acts on. -/
theorem amend {id : ThreadId} {f : Mutator → Mutator} (hf : ∀ m : Mutator, m.Amends (f m)) :
    (y.modifyRegistry e (·.update id f)).Lawful F := by
  refine h.replaceRegistry (fun r hr => hr.update (fun m => (hf m).id) fun m _ _ hm => ?_)
    (fun r => Registry.ids_update fun m => (hf m).id) (fun _ => rfl) (fun _ => rfl) fun _ => rfl
  refine hm.congr (hf m).status (hf m).pollRequested ?_
  unfold Registry.Stops
  rw [(hf m).suspendCount, (hf m).id]

theorem openRegistry (ms : Option Nat) :
    Lawful F { y with registries := y.registries.push { timeout := ms } } := by
  refine h.of_registries (by simp) (fun hF k r hr => ?_) (fun {k r} hr =>
    ⟨r, ?_, rfl, rfl, rfl⟩) fun k => ?_
  · rw [Array.getElem?_push] at hr
    split at hr
    · cases hr
      exact Registry.sound_empty
    · exact h.soundly hF k r hr
  · have hk := (Array.getElem?_eq_some_iff.mp hr).1
    rw [Array.getElem?_push, if_neg (Nat.ne_of_lt hk)]
    exact hr
  · simp only [isStopped, Array.getElem?_push]
    split
    · next hk =>
        subst hk
        rw [Array.getElem?_size]
        rfl
    · rfl

theorem recruit (htasks : tasks.all Task.isOrdinary = true) :
    Lawful F { y with stations := y.stations.push ⟨none, [], tasks, .unit⟩ } := by
  have hexpects : expects tasks = none := by
    have happend : expects (tasks ++ []) = none := expects_append htasks rfl
    rwa [List.append_nil] at happend
  have hheld : Station.held ⟨none, [], tasks, .unit⟩ = none := Station.held_of_idle hexpects
  have hawaits : Station.awaits ⟨none, [], tasks, .unit⟩ = [] := awaits_of_ordinary htasks
  have hempty : Station.tokens ⟨none, [], tasks, .unit⟩ = 0 := by
    unfold Station.tokens Station.guards
    dsimp only
    rw [guards_of_ordinary htasks, hawaits, hexpects, Station.granted_none]
    rfl
  have hsame :
      Yard.tokens { y with stations := y.stations.push ⟨none, [], tasks, .unit⟩ } = y.tokens := by
    unfold tokens
    rw [total_push, hempty, add_zero]
  have back : ∀ {k : Nat} {z}, (y.stations.push ⟨none, [], tasks, .unit⟩)[k]? = some z →
      y.stations[k]? = some z ∨ z = ⟨none, [], tasks, .unit⟩ := by
    intro k z hz
    rw [Array.getElem?_push] at hz
    split at hz
    · cases hz
      exact .inr rfl
    · exact .inl hz
  refine h.of_stations (fun hz => ?_) (fun hz hb => ?_) (fun hz hmem => ?_) hsame <;>
    rcases back hz with hold | rfl
  · exact h.orderly _ _ hold
  · exact orderly_of_ordinary htasks
  · exact ⟨_, hold, hb, id⟩
  · cases hheld.symm.trans hb
  · exact ⟨_, hold, hmem⟩
  · rw [hawaits] at hmem
    cases hmem

/-- A shift of a thread that has nothing to take over keeps a world lawful. -/
theorem shift (hidle : y.Idle t) (hs : Shift F t y y') : y'.Lawful F := by
  cases hs with
  | station hx halters => exact h.alter hx (hidle _ hx) halters
  | amend e hf => exact h.amend hf
  | openRegistry ms => exact h.openRegistry ms
  | recruit e => exact h.recruit rfl

theorem idle_shift (hidle : y.Idle t) (hs : Shift F t y y') : y'.Idle t := by
  cases hs with
  | @station x x' hx halters =>
    intro z hz
    rcases getElem?_modify hz with ⟨-, rfl⟩ | ⟨hne, -⟩
    · exact (halters.keeps (h.orderly t x hx) (hidle x hx)).idle
    · exact (hne rfl).elim
  | amend e hf => exact hidle
  | openRegistry ms => exact hidle
  | recruit e =>
    intro z hz
    rw [Array.getElem?_push] at hz
    split at hz
    · cases hz
      rfl
    · exact hidle z hz

theorem shifts_induction {y' : Yard} {P : Yard → Prop}
    (hidle : y.Idle t) (hs : Relation.ReflTransGen (Shift F t) y y')
    (step : ∀ {z z'}, z.Lawful F → z.Idle t → Shift F t z z' → P z → P z') (hy : P y) : P y' := by
  suffices (y'.Lawful F ∧ y'.Idle t) ∧ P y' from this.2
  induction hs with
  | refl => exact ⟨⟨h, hidle⟩, hy⟩
  | tail _ hlast ih =>
    obtain ⟨⟨hl, hi⟩, hP⟩ := ih
    exact ⟨⟨hl.shift hi hlast, hl.idle_shift hi hlast⟩, step hl hi hlast hP⟩

theorem shifts (hidle : y.Idle t) (hs : Relation.ReflTransGen (Shift F t) y y') : y'.Lawful F :=
  h.shifts_induction hidle hs (fun hl hi hlast _ => hl.shift hi hlast) h

end Lawful

end Yard

end ManagedHeap
