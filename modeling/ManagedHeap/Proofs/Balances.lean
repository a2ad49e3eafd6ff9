import ManagedHeap.Proofs.Beginnings
import Mathlib.Algebra.BigOperators.Group.List.Basic
import Mathlib.Algebra.Order.Group.Multiset

/-!
# Balances along runs

**Input.**  A run, and a measure of stacks.

**Algorithm.**  A step takes a task off the stack of its thread and leaves others there.  If what a
step gains and what was on the stack before come to what it spends and what is on the stack after
it, then all that was gained along a run is spent or still on stacks.

**Results.**  `World.Balanced.after`, and `World.balanced_of_tasks` for measures that add up the
tasks of a stack.
-/

namespace ManagedHeap

section Sums

variable {α M : Type} [AddCommMonoid M]

theorem exists_sum_modify {l : List α} {i : Nat} {x : α} (hx : l[i]? = some x) (g : α → M) :
    ∃ m, (l.map g).sum = g x + m ∧ ∀ y, ((l.modify i fun _ => y).map g).sum = g y + m := by
  induction l generalizing i with
  | nil => cases hx
  | cons z rest ih =>
    cases i with
    | zero =>
      cases hx
      exact ⟨(rest.map g).sum, by simp, fun y => by simp⟩
    | succ i =>
      obtain ⟨m, hsum, hmodify⟩ := ih (by simpa using hx)
      refine ⟨g z + m, ?_, fun y => ?_⟩
      · rw [List.map_cons, List.sum_cons, hsum, add_left_comm]
      · rw [List.modify_succ_cons, List.map_cons, List.sum_cons, hmodify, add_left_comm]

theorem sum_eq_zero_of_all {tasks : List Task} {kind : Task → Bool} {f : Task → M}
    (hf : ∀ task, kind task = true → f task = 0) (h : tasks.all kind = true) :
    (tasks.map f).sum = 0 := by
  refine List.sum_eq_zero fun y hy => ?_
  obtain ⟨task, htask, rfl⟩ := List.mem_map.mp hy
  exact hf task (List.all_eq_true.mp h task htask)

end Sums

namespace Floor

variable {M : Type} [AddCommMonoid M] {φ : Stack → M} {f f' : Floor} {t : Nat} {s : Stack}

def load (φ : Stack → M) (f : Floor) : M := (f.threads.toList.map φ).sum

theorem exists_load (hs : f.threads[t]? = some s) :
    ∃ m, f.load φ = φ s + m ∧ ∀ s', (f.put t s').load φ = φ s' + m := by
  obtain ⟨m, hsum, hmodify⟩ :=
    exists_sum_modify (by simpa using hs : f.threads.toList[t]? = some s) φ
  refine ⟨m, hsum, fun s' => ?_⟩
  rw [load, put, Array.toList_modify, hmodify]

@[simp]
theorem load_alter (c : Notch) : (f.alter c).load φ = f.load φ := by
  rw [load, load, threads_alter]

theorem load_push (s : Stack) : load φ { f with threads := f.threads.push s } = f.load φ + φ s := by
  simp [load]

theorem Grows.load (h : f.Grows R f') (hserve : ∀ e, φ ⟨[.serve e], .unit⟩ = 0) :
    f'.load φ = f.load φ := by
  induction h with
  | refl => rfl
  | @tail g _ _ opens ih =>
    cases opens with
    | registers | drops | resigns | resets | makes => exact ih
    | @hires e =>
      have hpush := load_push (φ := φ) (f := g.modifyBoard e .hire) ⟨[.serve e], .unit⟩
      rw [hserve, add_zero] at hpush
      exact hpush.trans ih

end Floor

namespace World

variable {w : World} {m : Move} {t : Nat}

section Steps

def taken (w : World) : Move → Option Stack
  | .step t => if (w.step t).isSome then w.stackOf t else none
  | _ => none

/-- The steps of moves: the world before each of them, and the stack of the thread that makes it. -/
def steps (w : World) : List Move → List (World × Stack)
  | [] => []
  | m :: rest => ((w.taken m).map (Prod.mk w)).toList ++ (w.move m).steps rest

theorem steps_append (moves more : List Move) :
    w.steps (moves ++ more) = w.steps moves ++ (w.after moves).steps more := by
  induction moves generalizing w with
  | nil => rfl
  | cons m rest ih => rw [List.cons_append, steps, steps, ih, List.append_assoc]; rfl

theorem steps_snoc (moves : List Move) (m : Move) : w.steps (moves ++ [m]) = w.steps moves ++
      (((w.after moves).taken m).map (Prod.mk (w.after moves))).toList := by
  rw [steps_append, steps, steps, List.append_nil]

theorem sum_steps_snoc [AddCommMonoid M] (g : World × Stack → M) (moves : List Move) (m : Move) :
    ((w.steps (moves ++ [m])).map g).sum = ((w.steps moves).map g).sum +
      ((w.after moves).taken m).elim 0 fun x => g (w.after moves, x) := by
  rw [steps_snoc, List.map_append, List.sum_append]
  cases (w.after moves).taken m <;> simp

theorem taken_of_some (h : (w.step t).isSome = true) : w.taken (.step t) = w.stackOf t := if_pos h

theorem taken_of_none (h : ∀ t, m = .step t → w.step t = none) : w.taken m = none := by
  cases m with
  | step t => rw [taken, h t rfl]; rfl
  | _ => rfl

end Steps

section Balance

variable {M : Type} [AddCancelCommMonoid M] {φ : Stack → M} {gain spend : World × Stack → M}

def load (φ : Stack → M) (w : World) : M := w.floor.load φ

theorem load_eq_zero (h : ∀ t x, w.stackOf t = some x → φ x = 0) : w.load φ = 0 := by
  refine List.sum_eq_zero fun y hy => ?_
  obtain ⟨x, hx, rfl⟩ := List.mem_map.mp hy
  obtain ⟨t, ht⟩ := List.getElem?_of_mem hx
  refine h t x ?_
  rw [← threads_floor, ← ht, Array.getElem?_toList]

/-- Whether steps spend what they gain, but for what they leave on stacks, in a run from a world. -/
structure Balanced (w : World) (φ : Stack → M) (gain spend : World × Stack → M) : Prop where
  serve : ∀ e, φ ⟨[.serve e], .unit⟩ = 0
  idle : ∀ r, φ ⟨[], r⟩ = 0
  perform : ∀ i r, φ ⟨[.perform i], r⟩ = 0
  steps : ∀ {past : List Move} {t : Nat} {task : Task} {rest tasks : List Task}
    {r : Reply} {a : Option Reply} {c : Notch}, (w.after past).stackOf t = some ⟨task :: rest, r⟩ →
    task.Produces (w.after past).engines t r tasks a c → gain (w.after past, ⟨task :: rest, r⟩) +
      φ ⟨task :: rest, r⟩ = spend (w.after past, ⟨task :: rest, r⟩) + φ ⟨tasks ++ rest, a.getD r⟩
  performs : ∀ {past : List Move} {t : Nat} {i : Instruction} {rest tasks : List Task}
    {r : Reply} {a : Option Reply}, (w.after past).stackOf t = some ⟨.perform i :: rest, r⟩ →
    Opening (w.after past).engines [] tasks →
    gain (w.after past, ⟨.perform i :: rest, r⟩) + φ ⟨.perform i :: rest, r⟩ =
      spend (w.after past, ⟨.perform i :: rest, r⟩) + φ ⟨tasks ++ rest, a.getD r⟩

theorem Balanced.move (h : w.Balanced φ gain spend) (hagents : (w.after past).floor.Informed)
    (m : Move) : (((w.after past).taken m).elim 0 fun s => gain (w.after past, s)) +
      (w.after past).load φ = (((w.after past).taken m).elim 0 fun s => spend (w.after past, s)) +
      ((w.after past).move m).load φ := by
  have hmove := rearranges_move (w.after past) m
  unfold load
  generalize ((w.after past).move m).floor = f at hmove ⊢
  cases hmove with
  | rests hrests => rw [taken_of_none hrests]; rfl
  | comes =>
    rw [Floor.load_push, h.idle, add_zero]
    rfl
  | @instructs t number timed i r hs =>
    obtain ⟨n, hload, hput⟩ := Floor.exists_load (φ := φ) ((threads_floor t).trans hs)
    rw [hput, hload, h.idle, h.perform]
    rfl
  | @steps t task rest tasks r a c hstep hs hproduces =>
    obtain ⟨n, hload, hput⟩ := Floor.exists_load (φ := φ) ((threads_floor t).trans hs)
    rw [taken_of_some hstep, hs, Floor.load_alter, hput, hload, ← add_assoc, ← add_assoc]
    exact congrArg (· + n) (h.steps hs hproduces)
  | @performs t i rest tasks r a f hstep hs hopening hgrows =>
    obtain ⟨n, hload, hput⟩ := Floor.exists_load (φ := φ) ((threads_floor t).trans hs)
    have hthere :=
      hgrows.threads_of_some (Floor.getElem?_put_self ((threads_floor t).trans hs) ⟨rest, r⟩)
    obtain ⟨n', hload', hput'⟩ := Floor.exists_load (φ := φ) hthere
    -- whoever was hired meanwhile comes to nothing
    have hsame : n' = n := by
      have hgrown := hgrows.load h.serve
      rw [hload', hput] at hgrown
      exact add_left_cancel hgrown
    rw [taken_of_some hstep, hs, hput', hload, hsame, ← add_assoc, ← add_assoc]
    exact congrArg (· + n) (h.performs hs (opening_of_informed hagents hopening))

theorem load_start (hserve : ∀ e, φ ⟨[.serve e], .unit⟩ = 0) (s : EngineSpec) (label : String) :
    (start s label).load φ = 0 := by
  unfold load
  rw [(floor_start s label).load hserve]
  simp [Floor.load, floor]

/-- **What is gained along a run is spent or still on stacks.** -/
theorem Balanced.after (h : (start s label).Balanced φ gain spend)
    (moves : List Move) : (((start s label).steps moves).map gain).sum =
      (((start s label).steps moves).map spend).sum + ((start s label).after moves).load φ := by
  induction moves using List.reverseRecOn with
  | nil =>
    have hload : ((start s label).after []).load φ = 0 := load_start h.serve s label
    rw [hload, add_zero]
    rfl
  | append_singleton moves m ih =>
    have hmove := h.move (informed_after s label moves) m
    rw [sum_steps_snoc, sum_steps_snoc, ih, after_append, add_right_comm, add_assoc, hmove,
      ← add_assoc]
    rfl

/-- What was on stacks and is gained along a part of a run is spent in that part or still on
stacks. -/
theorem Balanced.between (h : (start s label).Balanced φ gain spend) (before during : List Move) :
    ((start s label).after before).load φ +
      ((((start s label).after before).steps during).map gain).sum =
      ((((start s label).after before).steps during).map spend).sum +
      ((start s label).after (before ++ during)).load φ := by
  have hall := h.after (before ++ during)
  rw [steps_append, List.map_append, List.sum_append, List.map_append, List.sum_append,
    h.after before, add_assoc, add_assoc] at hall
  exact add_left_cancel hall

/-- A measure that adds up the tasks of a stack only has to be looked at where a task is
replaced. -/
theorem balanced_of_tasks (hserve : ∀ e, f (.serve e) = 0) (hperform : ∀ i, f (.perform i) = 0)
    (hfirst : ∀ task, task.isFirst = true → f task = 0) (hskips : ∀ {w i rest r},
      gain (w, ⟨.perform i :: rest, r⟩) = spend (w, ⟨.perform i :: rest, r⟩))
    (hproduces : ∀ {past : List Move} {t : Nat} {task : Task} {rest tasks : List Task} {r : Reply}
      {a : Option Reply} {c : Notch}, (w.after past).stackOf t = some ⟨task :: rest, r⟩ →
      task.Produces (w.after past).engines t r tasks a c → gain (w.after past, ⟨task :: rest, r⟩) +
      f task = spend (w.after past, ⟨task :: rest, r⟩) + (tasks.map f).sum) :
    w.Balanced (fun s => (s.tasks.map f).sum) gain spend where
  serve e := by simp [hserve]
  idle r := rfl
  perform i r := by simp [hperform]
  steps := by
    intro past t task rest tasks r a c hs h
    rw [List.map_cons, List.sum_cons, List.map_append, List.sum_append, ← add_assoc, ← add_assoc,
      hproduces hs h]
  performs := by
    intro past t i rest tasks r a hs h
    rw [List.map_cons, List.sum_cons, List.map_append, List.sum_append, hperform,
      sum_eq_zero_of_all hfirst h.all_isFirst, hskips]

end Balance

end World

end ManagedHeap
