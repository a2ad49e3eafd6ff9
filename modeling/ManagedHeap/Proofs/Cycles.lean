import ManagedHeap.Proofs.Balances
import ManagedHeap.Proofs.Courses

/-!
# Collections follow each other

**Input.**  A run in which threads collect and allocate.

**Algorithm.**  Whoever has the lock of a collector is in the middle of a collection, and nobody
else is.  A collection that comes to its end has counted one cycle, made one pause and told agents
twice; one that could not stop the world has told them once.

**Results.**  `World.serial_after`: how threads and collectors stand to each other, whatever threads
do.
-/

namespace ManagedHeap

variable {task : Task} {r : Reply} {e : Nat}

section Chronicle

def Task.ends (e : Nat) : Task → Reply → List Reply
  | .unlockCollector k, r => if k = e then [r] else []
  | _, _ => []

/-- The reports of collections that came to their end. -/
def reports : List Reply → List Report
  | [] => []
  | .report rp :: rest => rp :: reports rest
  | _ :: rest => reports rest

/-- What agents are told about collections that ended like this, if `n` cycles were counted
before. -/
def script (n : Nat) : List Reply → List Notice
  | [] => []
  | .report rp :: rest =>
    .gcStarted (n + 1) :: .gcFinished (n + 1) rp.reclaimedObjects rp.reclaimedBytes ::
      script (n + 1) rest
  | _ :: rest => .gcStarted (n + 1) :: script n rest

/-- Whether somebody left a collection with its report, or because the world could not be stopped in
time. -/
def Reply.IsEnding (r : Reply) : Prop :=
  (∃ rp, r = .report rp) ∨ ∃ text, r = .failed (.timeout text)

variable {n : Nat} {ends more : List Reply} {r : Reply}

theorem reports_append : reports (ends ++ more) = reports ends ++ reports more := by
  induction ends with
  | nil => rfl
  | cons r rest ih => cases r <;> simp [reports, ih]

theorem script_append (ends more : List Reply) (n : Nat) :
    script n (ends ++ more) = script n ends ++ script (n + (reports ends).length) more := by
  induction ends generalizing n with
  | nil => rfl
  | cons r rest ih =>
    cases r with
    | report rp =>
      have hlength : n + ((reports rest).length + 1) = n + 1 + (reports rest).length := by omega
      simp [script, reports, ih, hlength]
    | _ => simp [script, reports, ih]

/-- What a collection has done when it ends with this answer, if `n` cycles were counted before. -/
structure Leg.Closes (n : Nat) (r : Reply) (leg : Leg) : Prop where
  phase : leg.phase = .idle
  cycles : (reports [r]).length = leg.cycles
  ticks : leg.ticks = leg.cycles
  told : script n [r] = leg.told
  numbered : (reports [r]).map (·.cycle) = List.range' (n + 1) leg.cycles
  ended : r.IsEnding

theorem Course.ending (h : Course e n [] r leg) : leg.Closes n r := by
  cases h with
  | @succeeded rp hrp =>
    exact ⟨rfl, rfl, rfl, by rw [Report.notice, hrp]; rfl, by rw [← hrp]; rfl, .inl ⟨rp, rfl⟩⟩
  | @failed text => exact ⟨rfl, rfl, rfl, rfl, rfl, .inr ⟨text, rfl⟩⟩

end Chronicle

def legOf (holder : Option (Nat × Leg)) (t : Nat) : Option Leg :=
  holder.bind fun h => if h.1 = t then some h.2 else none

/-- How the threads and the collector of an engine stand to each other, after the given notices,
pauses and ends of collections, if the given thread has the lock. -/
structure Serial (f : Floor) (e : Nat) (told : List Notice) (ticks : Nat) (ends : List Reply)
    (holder : Option (Nat × Leg)) : Prop where
  stands : ∀ {t : Nat} {s : Stack}, f.threads[t]? = some s →
    Stands e (reports ends).length s (legOf holder t)
  shows : ∀ {b : Board}, f.boards[e]? = some b →
    b.collector = holder.elim { cycles := (reports ends).length } fun h =>
    h.2.collector h.1 (reports ends).length
  absent : f.boards[e]? = none → ends = [] ∧ holder = none ∧
    ∀ {t : Nat} {s : Stack}, f.threads[t]? = some s → s.tasks.all (Task.isOuter e) = true
  there : ∀ {t : Nat} {leg : Leg}, holder = some (t, leg) → t < f.threads.size
  told : told = script 0 ends ++ holder.elim [] (·.2.told)
  ticks : ticks = (reports ends).length + holder.elim 0 (·.2.ticks)
  numbered : (reports ends).map (·.cycle) = List.range' 1 (reports ends).length
  ended : ∀ r ∈ ends, r.IsEnding

namespace Serial

variable {f : Floor} {e t ticks : Nat} {told : List Notice} {ends : List Reply}
  {holder : Option (Nat × Leg)} {leg : Leg} {s s' : Stack} {c : Notch} {b : Board}

theorem legOf_self : legOf (some (t, leg)) t = some leg := by simp [legOf]

theorem legOf_of_ne (h : u ≠ t) : legOf (some (t, leg)) u = none := by simp [legOf, Ne.symm h]

theorem eq_of_legOf (h : legOf holder t = some leg) : holder = some (t, leg) := by
  obtain ⟨⟨u, l⟩, rfl, hleg⟩ := Option.bind_eq_some_iff.mp h
  dsimp only at hleg
  split at hleg
  · next hu =>
      cases hu
      cases hleg
      rfl
  · cases hleg

def shown (holder : Option (Nat × Leg)) (n : Nat) : Collector :=
  holder.elim { cycles := n } fun h => h.2.collector h.1 n

theorem exists_board {x : Runtime} {w : World} (hx : w.engines[e]? = some x) :
    w.floor.boards[e]? = some x.board := by
  rw [World.boards_floor, hx]
  rfl

variable (h : Serial f e told ticks ends holder)

include h

/-- A thread gets another stack, and the collector may show something else. -/
theorem replace (hs : f.threads[t]? = some s)
    (hstands : Stands e (reports ends').length s' (legOf holder' t))
    (hothers : ∀ {u x}, u ≠ t → Stands e (reports ends).length x (legOf holder u) →
      Stands e (reports ends').length x (legOf holder' u)) (hboard : ∀ b : Board,
      f.boards[e]? = some b → b.collector = shown holder (reports ends).length →
      (c.on e b).collector = shown holder' (reports ends').length) (habsent : f.boards[e]? = none →
      ends' = [] ∧ holder' = none ∧ s'.tasks.all (Task.isOuter e) = true)
    (hthere : ∀ {u leg}, holder' = some (u, leg) → u = t ∨ ∃ leg, holder = some (u, leg))
    (htold : told' = script 0 ends' ++ holder'.elim [] (·.2.told))
    (hticks : ticks' = (reports ends').length + holder'.elim 0 (·.2.ticks))
    (hnumbered : (reports ends').map (·.cycle) = List.range' 1 (reports ends').length)
    (hended : ∀ r ∈ ends', r.IsEnding) :
    Serial ((f.put t s').alter c) e told' ticks' ends' holder' where
  stands := by
    intro u x hx
    rw [Floor.threads_alter] at hx
    by_cases hu : u = t
    · subst hu
      cases (Floor.getElem?_put_self hs s').symm.trans hx
      exact hstands
    · rw [Floor.getElem?_put_of_ne hu] at hx
      exact hothers hu (h.stands hx)
  shows := by
    intro b hb
    rw [Floor.boards_alter, Floor.boards_put] at hb
    obtain ⟨b₀, hb₀, rfl⟩ := Option.map_eq_some_iff.mp hb
    exact hboard b₀ hb₀ (h.shows hb₀)
  absent := by
    intro hb
    rw [Floor.boards_alter, Floor.boards_put, Option.map_eq_none_iff] at hb
    obtain ⟨hends, hholder, hall⟩ := habsent hb
    refine ⟨hends, hholder, fun {u x} hx => ?_⟩
    rw [Floor.threads_alter] at hx
    by_cases hu : u = t
    · subst hu
      cases (Floor.getElem?_put_self hs s').symm.trans hx
      exact hall
    · rw [Floor.getElem?_put_of_ne hu] at hx
      exact (h.absent hb).2.2 hx
  there := by
    intro u l hu
    rw [Floor.threads_alter, Floor.put, Array.size_modify]
    rcases hthere hu with rfl | ⟨leg, hleg⟩
    · exact (Array.getElem?_eq_some_iff.mp hs).1
    · exact h.there hleg
  told := htold
  ticks := hticks
  numbered := hnumbered
  ended := hended

/-- A thread that has not the lock goes on without it. -/
theorem outside (hs : f.threads[t]? = some s) (hleg : legOf holder t = none)
    (hs' : Stands e (reports ends).length s' none) (hc : SparesCollector e c)
    (habsent : f.boards[e]? = none → s'.tasks.all (Task.isOuter e) = true) :
    Serial ((f.put t s').alter c) e told ticks ends holder :=
  h.replace hs (hleg ▸ hs') (fun _ h => h) (fun _ _ hb => (collector_of_spares hc).trans hb)
    (fun hb => ⟨(h.absent hb).1, (h.absent hb).2.1, habsent hb⟩) (fun hu =>
    .inr ⟨_, hu⟩) h.told h.ticks h.numbered h.ended

theorem enters (hs : f.threads[t]? = some s) (hb : f.boards[e]? = some b)
    (hfree : b.collector.owner = none)
    (hs' : Stands e (reports ends).length s' (some ⟨.idle, 0, 0, []⟩)) :
    Serial ((f.put t s').alter (some (e, .lock t))) e told ticks ends
    (some (t, ⟨.idle, 0, 0, []⟩)) := by
  obtain rfl : holder = none := by
    cases holder with
    | none => rfl
    | some holder =>
      rw [h.shows hb] at hfree
      cases hfree
  refine h.replace hs (by rw [legOf_self]; exact hs') (fun hu hx => ?_) (fun b' _ hshown =>
    ?_) (fun hnone => ?_) (fun hu => ?_) ?_ ?_ h.numbered h.ended
  · rw [legOf_of_ne hu]
    exact hx
  · show (if e = e then b'.lock t else b').collector = _
    rw [if_pos rfl]
    unfold Board.lock
    rw [hshown]
    rfl
  · rw [hb] at hnone
    cases hnone
  · cases hu
    exact .inl rfl
  · rw [h.told]
    rfl
  · rw [h.ticks]
    rfl

omit h

theorem advances (h : Serial f e told ticks ends (some (t, leg))) (hs : f.threads[t]? = some s)
    (hb : f.boards[e]? = some b) (hleg : leg.Advances t e (reports ends).length task r c leg')
    (hs' : Stands e (reports ends).length s' (some leg')) : Serial ((f.put t s').alter c) e
    (told ++ task.announces e) (ticks + task.ticks e r) ends (some (t, leg')) := by
  refine h.replace hs (by rw [legOf_self]; exact hs') (fun hu hx => ?_) (fun b' _ hshown =>
    hleg.collector b' hshown) (fun hnone => ?_) (fun hu => ?_) ?_ ?_ h.numbered h.ended
  · rw [legOf_of_ne hu] at hx ⊢
    exact hx
  · rw [hb] at hnone
    cases hnone
  · cases hu
    exact .inl rfl
  · rw [h.told, List.append_assoc]
    exact congrArg _ hleg.told.symm
  · rw [h.ticks, Nat.add_assoc]
    exact congrArg _ hleg.ticks.symm

theorem leaves (h : Serial f e told ticks ends (some (t, leg))) (hs : f.threads[t]? = some s)
    (hb : f.boards[e]? = some b) (hleg : Course e (reports ends).length [] r leg)
    (hs' : s'.tasks.all (Task.isOuter e) = true) :
    Serial ((f.put t s').alter (some (e, .unlock))) e told ticks (ends ++ [r]) none := by
  have hend := hleg.ending
  have hlength : (reports (ends ++ [r])).length = (reports ends).length + leg.cycles := by
    rw [reports_append, List.length_append, hend.cycles]
  refine h.replace hs (.outside hs') (fun hu hx => ?_) (fun b' _ hshown => ?_) (fun hnone =>
    ?_) nofun ?_ ?_ ?_ fun r' hr' => ?_
  · rw [legOf_of_ne hu] at hx
    exact hx.of_none
  · show (if e = e then b'.unlock else b').collector = _
    rw [if_pos rfl, hlength]
    unfold Board.unlock
    rw [hshown]
    show Collector.mk leg.phase _ none = _
    rw [hend.phase]
    rfl
  · rw [hb] at hnone
    cases hnone
  · rw [h.told, script_append, Nat.zero_add, hend.told]
    exact (List.append_nil _).symm
  · rw [h.ticks, hlength, ← hend.ticks]
    rfl
  · rw [hlength, reports_append, List.map_append, h.numbered, hend.numbered, ← List.range'_append_1,
      Nat.add_comm 1]
  · rcases List.mem_append.mp hr' with hold | hnew
    · exact h.ended r' hold
    · cases List.mem_singleton.mp hnew
      exact hend.ended

include h

theorem extend (hthreads : ∀ u : Nat, f'.threads[u]? = f.threads[u]? ∨ f.threads[u]? = none ∧
      ∃ s : Stack, f'.threads[u]? = some s ∧ s.tasks.all (Task.isOuter e) = true)
    (hboards : ∀ b' : Board, f'.boards[e]? = some b' → (∃ b, f.boards[e]? = some b ∧
      b'.collector = b.collector) ∨ f.boards[e]? = none ∧ b'.collector = {})
    (hnone : f'.boards[e]? = none → f.boards[e]? = none) : Serial f' e told ticks ends holder where
  stands := by
    intro u x hx
    rcases hthreads u with hsame | ⟨hnew, s, hs, hall⟩
    · exact h.stands (hsame.symm.trans hx)
    · cases hs.symm.trans hx
      have hleg : legOf holder u = none := by
        cases hleg : legOf holder u with
        | none => rfl
        | some leg =>
          have hlt := h.there (eq_of_legOf hleg)
          rw [Array.getElem?_eq_none_iff] at hnew
          omega
      rw [hleg]
      exact .outside hall
  shows := by
    intro b' hb'
    rcases hboards b' hb' with ⟨b, hb, hsame⟩ | ⟨hb, hfresh⟩
    · rw [hsame]
      exact h.shows hb
    · obtain ⟨rfl, rfl, -⟩ := h.absent hb
      exact hfresh
  absent := by
    intro hb'
    obtain ⟨hends, hholder, hall⟩ := h.absent (hnone hb')
    refine ⟨hends, hholder, fun {u x} hx => ?_⟩
    rcases hthreads u with hsame | ⟨-, s, hs, houter⟩
    · exact hall (hsame.symm.trans hx)
    · cases hs.symm.trans hx
      exact houter
  there := by
    intro u leg hu
    have hlt := h.there hu
    rcases hthreads u with hsame | ⟨hnew, -⟩
    · rw [Array.getElem?_eq_getElem hlt] at hsame
      exact (Array.getElem?_eq_some_iff.mp hsame).1
    · rw [Array.getElem?_eq_none_iff] at hnew
      omega
  told := h.told
  ticks := h.ticks
  numbered := h.numbered
  ended := h.ended

theorem grows (hf : f.Grows R f') : Serial f' e told ticks ends holder := by
  refine h.extend (fun u => ?_) (fun b' hb' => ?_) fun hnone => ?_
  · rcases hf.threads u with hsame | ⟨hnone, k, hserve⟩
    · exact .inl hsame
    · exact .inr ⟨hnone, _, hserve, rfl⟩
  · rcases hf.board hb' with ⟨b, hb, hgrows⟩ | ⟨hb, _, hgrows⟩
    · exact .inl ⟨b, hb, hgrows.same.1⟩
    · exact .inr ⟨hb, hgrows.same.1⟩
  · rw [Array.getElem?_eq_none_iff] at hnone ⊢
    exact hf.size_boards_le.trans hnone

theorem legOf_of_perform (hs : f.threads[t]? = some s)
    (hidle : s.tasks = [] ∨ s.tasks = [.perform i]) : legOf holder t = none := by
  have hstands := h.stands hs
  generalize legOf holder t = leg at hstands
  cases hstands with
  | outside | waits => rfl
  | @inside front rest r leg hfront =>
    rcases hidle with hnil | hperform
    · cases front <;> cases hnil
    · cases front with
      | nil => cases hperform
      | cons task front => cases front <;> cases hperform

end Serial

/-- What the next step of a stack begins to tell agents about collections. -/
def Stack.announces (e : Nat) (s : Stack) : List Notice := s.tasks.head?.elim [] (Task.announces e)

/-- How many pauses of an engine the next step of a stack makes. -/
def Stack.ticks (e : Nat) (s : Stack) : Nat := s.tasks.head?.elim 0 fun task => task.ticks e s.reply

/-- The collection that ends with the next step of a stack. -/
def Stack.ends (e : Nat) (s : Stack) : List Reply :=
  s.tasks.head?.elim [] fun task => task.ends e s.reply

theorem Task.ends_of_isOuter (h : task.isOuter e = true) : task.ends e r = [] := by
  cases task with
  | unlockCollector k =>
    have hne : k ≠ e := by simpa [isOuter, isInner] using h
    exact if_neg hne
  | _ => rfl

theorem Task.announces_of_isOuter (h : task.isOuter e = true) : task.announces e = [] := by
  cases task with
  | dispatch k n =>
    refine if_neg fun hk => ?_
    simp [isOuter, isInner, hk] at h
  | _ => rfl

theorem Task.ticks_of_isOuter (h : task.isOuter e = true) : task.ticks e r = 0 := by
  cases task with
  | pause k =>
    have hne : k ≠ e := by simpa [isOuter, isInner] using h
    cases r <;> first | rfl | exact if_neg hne
  | _ => rfl

/-- Whether a task does not collect an engine without looking whether it is there. -/
def Task.isAimless (task : Task) : Bool := task.target?.isNone

/-- Whether the engine that a task will collect exists. -/
def Task.Aims (size : Nat) (task : Task) : Prop := ∀ k, task.target? = some k → k < size

theorem Task.Aims.mono (hle : size ≤ size') (h : task.Aims size) : task.Aims size' :=
  fun k hk => (h k hk).trans_le hle

theorem Task.aims_of_isAimless (h : task.isAimless = true) : task.Aims size := by
  intro k hk
  rw [isAimless, hk] at h
  cases h

theorem Queues.ends (h : Queues e (task :: front)) : task.ends e r = [] := by
  cases h <;> rfl

theorem Course.ends (h : Course e n (task :: front) r leg) : task.ends e r = [] := by
  cases h with
  | passes htask => exact Task.ends_of_isOuter (Task.isOuter_of_isPassing htask)
  | delivers htask =>
    rcases eq_of_report? htask with ⟨pending, jobs, rfl⟩ | ⟨jobs, rfl⟩ | ⟨jobs, rfl⟩ | ⟨jobs, rfl⟩ |
      rfl <;> rfl
  | _ => rfl

namespace World

variable {w : World} {m : Move} {t e ticks : Nat} {told : List Notice} {ends : List Reply}
  {holder : Option (Nat × Leg)} {rest tasks : List Task} (s : EngineSpec) (label : String)
  (moves : List Move)

section Targets

theorem aims_of_isPlain (h : task.isPlain = true) : task.Aims size := by
  refine Task.aims_of_isAimless ?_
  cases task <;> first | rfl | cases h

theorem isKept_target : IsKept (start s label) fun past task _ =>
    task.Aims ((start s label).after past).engines.size where
  mono h := h.mono (size_engines_le_after _ _)
  serve _ _ := Task.aims_of_isAimless rfl
  perform _ _ := Task.aims_of_isAimless rfl
  opening := by
    intro past t i rest tasks h hi hrest
    refine Arranged.imp (fun _ _ => Task.Aims.mono (size_engines_le_after past _)) ?_
    have hfree : ∀ (task : Task) (rest : List Task), task.isOpening = true →
        task.Aims ((start s label).after past).engines.size :=
      fun _ _ h => aims_of_isPlain (Task.isPlain_of_isOpening h)
    cases h with
    | plain h => exact hrest.append_of_free hfree h
    | collects hx =>
      refine ⟨?_, Task.aims_of_isAimless rfl, hrest⟩
      rintro k ⟨⟩
      exact (Array.getElem?_eq_some_iff.mp hx).1
    | drains => exact ⟨Task.aims_of_isAimless rfl, Task.aims_of_isAimless rfl, hrest⟩
    | suspends _ h | resumes _ h =>
      exact ⟨Task.aims_of_isAimless rfl, Task.aims_of_isAimless rfl, hrest.append_of_free hfree h⟩
  produces := by
    intro past t task rest tasks r a c hs h htask hrest
    refine Arranged.imp (fun _ _ => Task.Aims.mono (size_engines_le_after past _)) ?_
    have hfree : ∀ (task : Task) (rest : List Task), task.isAimless = true →
        task.Aims ((start s label).after past).engines.size := fun _ _ => Task.aims_of_isAimless
    have hdefers := (arranged_after (isKept_defers (start s label)) past _ hs).1
    have hplain : ∀ (task : Task) (rest : List Task), task.isPlain = true →
        task.Aims ((start s label).after past).engines.size := fun _ _ => aims_of_isPlain
    cases h with
    | aside _ htasks => exact hrest.append_of_free hplain (all_imp Task.isPlain_of_isSide htasks)
    | proceeds _ htasks =>
      exact hrest.append_of_free hplain (all_imp Task.isPlain_of_isProgram htasks)
    | @operates k op _ x expired registry p hx hstep =>
      have haimless : ∀ q : Progress, (q.tasks k).all Task.isAimless = true :=
        fun q => by cases q <;> rfl
      exact hrest.append_of_free hfree (haimless p)
    | enters =>
      exact ⟨hfree _ [] rfl, hplain _ [] (Task.isPlain_of_blocking hdefers), hfree _ [] rfl,
        hfree _ [] rfl, hrest⟩
    | nests => exact ⟨hplain _ [] (Task.isPlain_of_blocking hdefers), hrest⟩
    | serves | drains => exact hrest.append_of_free hfree (by simp [Task.isAimless, Task.target?])
    | @collectsFirst k x q _ size hx =>
      rw [List.append_assoc]
      refine Arranged.append_of_free hfree rfl ⟨?_, hrest⟩
      rintro k ⟨⟩
      exact (Array.getElem?_eq_some_iff.mp hx).1
    | collectsAgain =>
      rw [List.append_assoc]
      exact Arranged.append_of_free hfree rfl ⟨fun k hk => htask k hk, hrest⟩
    | _ => exact hrest.append_of_free hfree rfl

end Targets

/-- What is said of stacks in every run and a step of a collection needs. -/
structure Ready (w : World) : Prop where
  informed : w.floor.Informed
  defers : ∀ {t : Nat} {task : Task} {rest : List Task} {r : Reply},
    w.stackOf t = some ⟨task :: rest, r⟩ → task.Defers rest
  targets : ∀ {t : Nat} {task : Task} {rest : List Task} {r : Reply},
    w.stackOf t = some ⟨task :: rest, r⟩ → task.Aims w.engines.size

theorem ready_after : ((start s label).after moves).Ready where
  informed := informed_after s label moves
  defers hs := (arranged_after (isKept_defers _) moves _ hs).1
  targets hs := (arranged_after (isKept_target s label) moves _ hs).1

variable (hw : w.Ready) (h : Serial w.floor e told ticks ends holder)

include hw h

theorem serial_steps {a : Option Reply} {c : Notch} (hs : w.stackOf t = some ⟨task :: rest, r⟩)
    (hproduces : task.Produces w.engines t r tasks a c) :
    ∃ holder', Serial ((w.floor.put t ⟨tasks ++ rest, a.getD r⟩).alter c) e
    (told ++ task.announces e) (ticks + task.ticks e r) (ends ++ task.ends e r) holder' := by
  have hs' := (threads_floor t).trans hs
  have hstands := h.stands hs'
  have hexists : .unlockCollector e ∈ task :: rest → ∃ x, w.engines[e]? = some x := by
    intro hmem
    refine Option.ne_none_iff_exists'.mp fun hnone => ?_
    have hall := (h.absent (by rw [boards_floor, hnone]; rfl)).2.2 hs'
    have houter := List.all_eq_true.mp hall _ hmem
    simp [Task.isOuter, Task.isInner] at houter
  generalize hleg : legOf holder t = leg at hstands
  generalize hx : (⟨task :: rest, r⟩ : Stack) = x at hstands
  cases hstands with
  | outside hall =>
    subst hx
    obtain ⟨htask, hrest⟩ : task.isOuter e = true ∧ rest.all (Task.isOuter e) = true := by
      rwa [List.all_cons, Bool.and_eq_true] at hall
    obtain ⟨hleaves, hspares⟩ := hproduces.outer (hw.defers hs) (hw.targets hs) htask
    rw [Task.announces_of_isOuter htask, Task.ticks_of_isOuter htask, Task.ends_of_isOuter htask,
      List.append_nil, List.append_nil]
    refine ⟨holder, ?_⟩
    cases hleaves with
    | outer houter =>
      have hall : (tasks ++ rest).all (Task.isOuter e) = true := by
        rw [List.all_append, houter, hrest]; rfl
      exact h.outside hs' hleg (.outside hall) hspares fun _ => hall
    | @collects reason more he hmore =>
      have hall : (more ++ rest).all (Task.isOuter e) = true := by
        rw [List.all_append, hmore, hrest]; rfl
      refine h.outside hs' hleg ?_ hspares fun hnone => ?_
      · rw [List.append_assoc]
        exact .waits .asks hall
      · rw [boards_floor, Option.map_eq_none_iff, Array.getElem?_eq_none_iff] at hnone
        omega
  | @waits front back _ hfront hback =>
    obtain ⟨htasks, rfl⟩ := Stack.mk.inj hx
    obtain ⟨x, hx'⟩ := hexists (htasks ▸ List.mem_append_right _ (List.mem_cons_self ..))
    have hthere := Serial.exists_board hx'
    cases front with
    | nil => cases hfront
    | cons first front =>
      obtain ⟨rfl, rfl⟩ := List.cons.inj (htasks.trans (List.cons_append ..))
      rw [hfront.announces, hfront.ticks, hfront.ends, List.append_nil, List.append_nil,
        ← List.append_assoc]
      cases hfront.step hx' hproduces with
      | goesOn hqueues hc =>
        refine ⟨holder,
          h.outside hs' hleg (.waits hqueues hback) (hc ▸ sparesCollector_none) fun hnone => ?_⟩
        rw [hthere] at hnone
        cases hnone
      | enters hfree hcourse hc =>
        subst hc
        exact ⟨_, h.enters hs' hthere hfree (.inside (hcourse _ _) hback)⟩
  | @inside front back _ leg hfront hback =>
    obtain ⟨htasks, rfl⟩ := Stack.mk.inj hx
    obtain ⟨x, hx'⟩ := hexists (htasks ▸ List.mem_append_right _ (List.mem_cons_self ..))
    have hthere := Serial.exists_board hx'
    obtain rfl := Serial.eq_of_legOf hleg
    cases front with
    | nil =>
      obtain ⟨rfl, rfl⟩ := List.cons.inj htasks
      obtain ⟨rfl, rfl, rfl⟩ := produces_unlockCollector hproduces
      have hend : (Task.unlockCollector e).ends e r = [r] := if_pos rfl
      rw [hend, show (Task.unlockCollector e).announces e = [] from rfl,
        show (Task.unlockCollector e).ticks e r = 0 from rfl, List.append_nil]
      exact ⟨_, h.leaves hs' hthere hfront hback⟩
    | cons first front =>
      obtain ⟨rfl, rfl⟩ := List.cons.inj (htasks.trans (List.cons_append ..))
      have hcycles : x.collector.cycles = (reports ends).length + leg.cycles :=
        congrArg Collector.cycles (h.shows hthere)
      obtain ⟨leg', hcourse, hadvances⟩ := hfront.step hx' hcycles hproduces
      rw [hfront.ends, List.append_nil, ← List.append_assoc]
      exact ⟨_, h.advances hs' hthere hadvances (.inside hcourse hback)⟩

theorem serial_performs {i : Instruction} {a : Option Reply}
    {f : Floor} (hs : w.stackOf t = some ⟨.perform i :: rest, r⟩)
    (hopening : Opening w.engines w.names.agents tasks) (hf : (w.floor.put t ⟨rest, r⟩).Grows R f) :
    Serial (f.put t ⟨tasks ++ rest, a.getD r⟩) e told ticks ends holder := by
  obtain rfl : rest = [] := hw.defers hs
  have hs' := (threads_floor t).trans hs
  have hleg := h.legOf_of_perform hs' (.inr rfl)
  have hidle : Serial (w.floor.put t ⟨[], r⟩) e told ticks ends holder :=
    h.outside hs' hleg (.outside rfl) sparesCollector_none fun _ => rfl
  have hthere := hf.threads_of_some (Floor.getElem?_put_self hs' ⟨[], r⟩)
  have hall : (tasks ++ []).all (Task.isOuter e) = true := by
    rw [List.append_nil]
    exact World.all_imp Task.isOuter_of_isFirst hopening.all_isFirst
  exact (hidle.grows hf).outside hthere hleg (.outside hall) sparesCollector_none fun _ => hall

/-- **One move of whatever thread.** -/
theorem serial_move (m : Move) :
    ∃ holder', Serial (w.move m).floor e (told ++ (w.taken m).elim [] (Stack.announces e)) (ticks +
      (w.taken m).elim 0 (Stack.ticks e)) (ends ++ (w.taken m).elim [] (Stack.ends e)) holder' := by
  have hmove := rearranges_move w m
  generalize (w.move m).floor = f at hmove
  cases hmove with
  | rests hrests =>
    rw [taken_of_none hrests]
    exact ⟨holder, by simpa using h⟩
  | comes =>
    refine ⟨holder, ?_⟩
    simp only [taken, Option.elim_none, List.append_nil, Nat.add_zero]
    refine h.extend (fun u => ?_) (fun b hb => .inl ⟨b, hb, rfl⟩) fun hnone => hnone
    rw [Array.getElem?_push]
    split
    · next hu => exact .inr ⟨by rw [hu]; exact Array.getElem?_eq_none le_rfl, _, rfl, rfl⟩
    · exact .inl rfl
  | @instructs t number timed i r hs =>
    have hs' := (threads_floor t).trans hs
    refine ⟨holder, ?_⟩
    simp only [taken, Option.elim_none, List.append_nil, Nat.add_zero]
    exact h.outside hs' (h.legOf_of_perform (i := i) hs' (.inl rfl))
      (.outside rfl) sparesCollector_none fun _ => rfl
  | @steps t task rest tasks r a c hstep hs hproduces =>
    rw [taken_of_some hstep, hs]
    exact serial_steps hw h hs hproduces
  | @performs t i rest tasks r a f hstep hs hopening hgrows =>
    rw [taken_of_some hstep, hs]
    refine ⟨holder, ?_⟩
    have hserial := serial_performs (a := a) hw h hs hopening hgrows
    simpa [Stack.announces, Stack.ticks, Stack.ends, Task.announces, Task.ticks,
      Task.ends] using hserial

omit hw h

section Runs

/-- What agents were told about the collections of an engine along moves, in order. -/
def announced (w : World) (e : Nat) (moves : List Move) : List Notice :=
  (w.steps moves).flatMap fun x => x.2.announces e

/-- How many pauses of an engine moves have made. -/
def pauses (w : World) (e : Nat) (moves : List Move) : Nat :=
  ((w.steps moves).map fun x => x.2.ticks e).sum

/-- How collections of an engine ended along moves, in order. -/
def endings (w : World) (e : Nat) (moves : List Move) : List Reply :=
  (w.steps moves).flatMap fun x => x.2.ends e

theorem flatMap_steps_snoc (g : Stack → List α) (moves : List Move) (m : Move) :
    ((w.steps (moves ++ [m])).flatMap fun x => g x.2) =
      ((w.steps moves).flatMap fun x => g x.2) ++ ((w.after moves).taken m).elim [] g := by
  rw [steps_snoc, List.flatMap_append]
  cases (w.after moves).taken m <;> simp

theorem announced_snoc (moves : List Move) (m : Move) : w.announced e (moves ++ [m]) =
      w.announced e moves ++ ((w.after moves).taken m).elim [] (Stack.announces e) :=
  flatMap_steps_snoc _ moves m

theorem endings_snoc (moves : List Move) (m : Move) : w.endings e (moves ++ [m]) =
      w.endings e moves ++ ((w.after moves).taken m).elim [] (Stack.ends e) :=
  flatMap_steps_snoc _ moves m

theorem endings_append (moves more : List Move) :
    w.endings e (moves ++ more) = w.endings e moves ++ (w.after moves).endings e more := by
  rw [endings, steps_append, List.flatMap_append]
  rfl

theorem announced_append (moves more : List Move) :
    w.announced e (moves ++ more) = w.announced e moves ++ (w.after moves).announced e more := by
  rw [announced, steps_append, List.flatMap_append]
  rfl

theorem pauses_snoc (moves : List Move) (m : Move) : w.pauses e (moves ++ [m]) =
    w.pauses e moves + ((w.after moves).taken m).elim 0 (Stack.ticks e) := sum_steps_snoc _ moves m

theorem serial_empty (e : Nat) : Serial ({} : World).floor e [] 0 [] none where
  stands h := by simp [floor] at h
  shows h := by simp [floor] at h
  absent _ := ⟨rfl, rfl, fun h => by simp [floor] at h⟩
  there h := by cases h
  told := rfl
  ticks := rfl
  numbered := rfl
  ended _ h := by cases h

/-- **Whoever has the lock of a collector is in the middle of a collection, and nobody else is.** -/
theorem serial_after (e : Nat) :
    ∃ holder, Serial ((start s label).after moves).floor e ((start s label).announced e moves)
      ((start s label).pauses e moves) ((start s label).endings e moves) holder := by
  induction moves using List.reverseRecOn with
  | nil => exact ⟨none, (serial_empty e).grows (floor_start s label)⟩
  | append_singleton moves m ih =>
    obtain ⟨holder, h⟩ := ih
    rw [announced_snoc, pauses_snoc, endings_snoc, after_append]
    exact serial_move (ready_after s label moves) h m

end Runs

end World

end ManagedHeap
