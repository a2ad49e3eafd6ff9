import ManagedHeap.Proofs.Attempts
import ManagedHeap.Proofs.Pending

/-!
# Waiting for finalizers

**Input.**  A run in which a thread waits until no finalizer of an engine is pending.

**Algorithm.**  A finalizer that was run or dropped is counted, then taken off the counter, and then
everybody who waits is told.  All this is done by the thread that ran or dropped it, one task after
the other, so that a counter that shows nothing says that all of it was done.

**Results.**  `World.drainsSoundly_after`: what was done when a thread finds that no finalizer is
pending, and why nobody sleeps who could find so.
-/

namespace ManagedHeap

variable {x : Runtime} {moment : List Move} {n : Nat}

open World (afterBody)

section Order

/-- What is asked of tasks that have to do with the counter, when there are `n` engines: who counts
a finalizer takes it off the counter next, and then tells those who wait. -/
def Task.Settles (n : Nat) (task : Task) (rest : List Task) : Prop :=
  match task with
  | .concludeJob e .. | .countPanic e => ∃ more, rest = .retire e 1 :: more
  | .retire e _ => ∃ more, rest = .announce e :: more
  | .runFinalization e _ => e < n
  | _ => True

def Task.isSettled : Task → Bool
  | .concludeJob .. | .countPanic _ | .retire .. | .runFinalization .. => false
  | _ => true

namespace Task

variable {task : Task} {tasks rest : List Task} {n n' : Nat}

theorem Settles.mono (hle : n ≤ n') (h : task.Settles n rest) : task.Settles n' rest := by
  cases task with
  | runFinalization e ms => exact Nat.lt_of_lt_of_le h hle
  | _ => exact h

theorem settles_of_isSettled (h : task.isSettled = true) : task.Settles n rest := by
  cases task <;> trivial

theorem isSettled_of_isPlain (h : task.isPlain = true) : task.isSettled = true := by
  cases task <;> first | rfl | cases h

end Task

/-- **What was run or dropped is counted, then taken off the counter, then told.** -/
theorem World.isKept_settles (s : EngineSpec) (label : String) : IsKept (start s label)
    fun past task rest => task.Settles ((start s label).after past).engines.size rest where
  mono h := h.mono (size_engines_le_after _ _)
  serve _ _ := trivial
  perform _ _ := trivial
  opening := by
    intro past t i rest tasks h hi hrest
    refine Arranged.imp (fun _ _ => Task.Settles.mono (size_engines_le_after past _)) ?_
    have hfree : ∀ (task : Task) rest, task.isOpening = true →
        task.Settles ((start s label).after past).engines.size rest :=
      fun _ _ h =>
        Task.settles_of_isSettled (Task.isSettled_of_isPlain (Task.isPlain_of_isOpening h))
    cases h with
    | plain h => exact hrest.append_of_free hfree h
    | collects => exact ⟨trivial, trivial, hrest⟩
    | drains hx => exact ⟨(Array.getElem?_eq_some_iff.mp hx).1, trivial, hrest⟩
    | suspends _ h | resumes _ h => exact ⟨trivial, trivial, hrest.append_of_free hfree h⟩
  produces := by
    intro past t task rest tasks r a c hs h htask hrest
    refine Arranged.imp (fun _ _ => Task.Settles.mono (size_engines_le_after past _)) ?_
    have hfree : ∀ (task : Task) rest, task.isSettled = true →
        task.Settles ((start s label).after past).engines.size rest :=
      fun _ _ => Task.settles_of_isSettled
    have hdefers := (arranged_after (isKept_defers (start s label)) past _ hs).1
    have hplain : ∀ (task : Task) rest, task.isPlain = true →
        task.Settles ((start s label).after past).engines.size rest :=
      fun _ _ h => hfree _ _ (Task.isSettled_of_isPlain h)
    cases h with
    | aside _ htasks => exact hrest.append_of_free hplain (all_imp Task.isPlain_of_isSide htasks)
    | proceeds _ htasks =>
      exact hrest.append_of_free hplain (all_imp Task.isPlain_of_isProgram htasks)
    | @operates k op _ x expired registry p hx hstep =>
      have hsettled : ∀ q : Progress, (q.tasks k).all Task.isSettled = true :=
        fun q => by cases q <;> rfl
      exact hrest.append_of_free hfree (hsettled p)
    | enters =>
      exact ⟨trivial, hplain _ _ (Task.isPlain_of_blocking hdefers), trivial, trivial, hrest⟩
    | nests => exact ⟨hplain _ _ (Task.isPlain_of_blocking hdefers), hrest⟩
    | serves | drains => exact hrest.append_of_free hfree (by simp [Task.isSettled])
    | ends => exact ⟨trivial, trivial, trivial, ⟨_, rfl⟩, ⟨_, rfl⟩, trivial, hrest⟩
    | panics => exact ⟨trivial, htask, hrest⟩
    | discarded => exact ⟨⟨_, rfl⟩, trivial, hrest⟩
    | _ => exact hrest.append_of_free hfree rfl

end Order

section Sleepers

variable {engines : Array Runtime} {t e : Nat} {task : Task} {tasks : List Task} {r : Reply}
  {a : Option Reply} {c : Notch}

/-- What a task can do to those who sleep until no finalizer of an engine is pending. -/
inductive Board.Minds (engines : Array Runtime) (e : Nat) (task : Task) (b b' : Board) : Prop
  | keeps (hsleepers : b.sleepers = [] → b'.sleepers = []) (hpending : b.pending ≤ b'.pending)
  | retires {n : Nat} (htask : task = .retire e n)
  | sleeps {x : Runtime} (hx : engines[e]? = some x) (hsome : x.finalization.pending ≠ 0)
      (hpending : b'.pending = b.pending)

theorem Task.Produces.minds (h : task.Produces engines t r tasks a c) (b : Board) :
    b.Minds engines e task (c.on e b) := by
  have hkeeps : ∀ {k} {g : Board → Board}, ((g b).sleepers = b.sleepers ∧
        b.pending ≤ (g b).pending) → b.Minds engines e task (if k = e then g b else b) := by
    intro k g hg
    split
    · exact .keeps (fun hnone => hg.1.trans hnone) hg.2
    · exact .keeps id le_rfl
  cases h with
  | locks | unlocks | setsPhase | pauses | givesUp | finishes | completes | countsDelivery
  | countsPanic | discarded | resigns | sends | serves | hears | drains | drainsAway | skips
  | drainsUnstarted | skipsUnstarted | closes | claimsReceiver | asksToLeave =>
    exact hkeeps ⟨rfl, le_rfl⟩
  | refuses | enrols => exact hkeeps ⟨rfl, Nat.le_add_right ..⟩
  | @retires k n =>
    by_cases hk : k = e
    · exact .retires (by rw [hk])
    · exact .keeps (by simp [hk]) (by simp [hk])
  | @announces k =>
    by_cases hk : k = e
    · exact .keeps (by simp [hk, Board.announce]) (by simp [hk, Board.announce])
    · exact .keeps (by simp [hk]) (by simp [hk])
  | @sees k | @expires k =>
    by_cases hk : k = e
    · exact .keeps (by simp +contextual [hk, Board.wake]) (by simp [hk, Board.wake])
    · exact .keeps (by simp [hk]) (by simp [hk])
  | @sleeps k x ms _ hx hsome =>
    by_cases hk : k = e
    · subst hk
      exact .sleeps hx hsome (by simp [Board.sleep])
    · exact .keeps (by simp [hk]) (by simp [hk])
  | _ => exact .keeps id le_rfl

/-- Whether those who sleep until no finalizer of an engine is pending wait for one, or are about to
be told. -/
def Floor.Watched (f : Floor) (e : Nat) : Prop :=
  ∀ b, f.boards[e]? = some b → b.sleepers ≠ [] → b.pending ≠ 0 ∨
    ∃ (u : Nat) (rest : List Task) (r : Reply), f.threads[u]? = some ⟨.announce e :: rest, r⟩

namespace World

variable {w : World} {m : Move}

theorem watched_move (h : w.floor.Watched e)
    (hsettles : ∀ {t task rest r}, w.stackOf t = some ⟨task :: rest, r⟩ →
      task.Settles w.engines.size rest) (m : Move) : (w.move m).floor.Watched e := by
  have hmove := rearranges_move w m
  generalize (w.move m).floor = f at hmove
  cases hmove with
  | rests => exact h
  | comes =>
    intro b hb hsleepers
    rcases h b hb hsleepers with hpending | ⟨u, rest, r, hu⟩
    · exact .inl hpending
    · refine .inr ⟨u, rest, r, ?_⟩
      have hlt := (Array.getElem?_eq_some_iff.mp hu).1
      rw [Array.getElem?_push, if_neg (Nat.ne_of_lt hlt)]
      exact hu
  | @instructs t number timed i r hs =>
    intro b hb hsleepers
    rcases h b hb hsleepers with hpending | ⟨u, rest, r', hu⟩
    · exact .inl hpending
    · refine .inr ⟨u, rest, r', ?_⟩
      rw [Floor.getElem?_put_of_ne ?_, hu]
      rintro rfl
      rw [threads_floor, hs] at hu
      cases hu
  | @steps t task rest tasks r a c hstep hs hproduces =>
    intro b' hb' hsleepers
    rw [Floor.boards_alter, Floor.boards_put] at hb'
    obtain ⟨b, hb, rfl⟩ := Option.map_eq_some_iff.mp hb'
    cases hproduces.minds b with
    | keeps hsame hpending =>
      rcases h b hb (fun hnone => hsleepers (hsame hnone)) with hsome | ⟨u, rest', r', hu⟩
      · exact .inl (Nat.ne_of_gt (Nat.lt_of_lt_of_le (Nat.pos_of_ne_zero hsome) hpending))
      · by_cases hut : u = t
        · subst hut
          -- whoever tells wakes everybody
          rw [threads_floor, hs] at hu
          cases hu
          cases hproduces with
          | announces => exact (hsleepers (by simp [Board.announce])).elim
          | _ => first | contradiction | simp_all
        · refine .inr ⟨u, rest', r', ?_⟩
          rw [Floor.threads_alter, Floor.getElem?_put_of_ne hut, hu]
    | @retires n htask =>
      subst htask
      obtain ⟨more, rfl⟩ := hsettles hs
      cases hproduces with
      | retires =>
        refine .inr ⟨t, more, r, ?_⟩
        rw [Floor.threads_alter, Floor.getElem?_put_self ((threads_floor t).trans hs)]
        rfl
      | _ => first | contradiction | simp_all
    | sleeps hx hsome hpending =>
      rw [boards_floor, hx] at hb
      cases hb
      exact .inl (by rw [hpending]; exact hsome)
  | @performs t i rest tasks r a f hstep hs hopening hgrows =>
    intro b' hb' hsleepers
    rw [Floor.boards_put] at hb'
    rcases hgrows.board hb' with ⟨b, hb, hgrown⟩ | ⟨-, _, hgrown⟩
    · obtain ⟨-, hpending, hsame⟩ := hgrown.same
      rw [hpending]
      rcases h b hb (by rwa [← hsame]) with hsome | ⟨u, rest', r', hu⟩
      · exact .inl hsome
      · refine .inr ⟨u, rest', r', ?_⟩
        have hut : u ≠ t := by
          rintro rfl
          rw [threads_floor, hs] at hu
          cases hu
        rw [Floor.getElem?_put_of_ne hut]
        exact hgrows.threads_of_some (by rw [Floor.getElem?_put_of_ne hut, hu])
    · exact (hsleepers hgrown.same.2.2).elim

/-- **Whoever sleeps until no finalizer is pending waits for one, or is about to be told.** -/
theorem watched_after (s : EngineSpec) (label : String) (moves : List Move) :
    ((start s label).after moves).floor.Watched e := by
  induction moves using List.reverseRecOn with
  | nil =>
    intro b hb hsleepers
    rcases (floor_start s label).board hb with ⟨b₀, hb₀, -⟩ | ⟨-, _, hgrown⟩
    · simp [floor] at hb₀
    · exact (hsleepers hgrown.same.2.2).elim
  | append_singleton moves m ih =>
    rw [after_append]
    exact watched_move ih (fun hs => (arranged_after (isKept_settles s label) moves _ hs).1) m

/-- Whether a thread sleeps until no finalizer of an engine is pending. -/
def SleepsUntilDrained (w : World) (t e : Nat) : Prop :=
  ∃ ms, w.nextTask t = some (.awaitDrain e ms) ∧ w.canMove t = false

theorem mem_awaitingDrain_of_sleeps (h : w.SleepsUntilDrained t e) :
    ∃ x, w.engines[e]? = some x ∧ t ∈ x.finalization.awaitingDrain := by
  obtain ⟨ms, hnext, hstuck⟩ := h
  rw [canMove_eq_isSome_step] at hstuck
  obtain ⟨y, hy, hhead⟩ := Option.bind_eq_some_iff.mp hnext
  obtain ⟨rest, htasks⟩ := List.head?_eq_some_iff.mp hhead
  simp only [step, hy, htasks, runTask, awaitDrain, Option.isSome_map] at hstuck
  split at hstuck
  · cases hstuck
  · next x hx =>
      refine ⟨x, hx, ?_⟩
      split at hstuck
      · next hasleep =>
          rw [Bool.and_eq_true] at hasleep
          exact List.contains_iff_mem.mp hasleep.1
      · (repeat' split at hstuck) <;> cases hstuck

/-- **When nothing can move, nobody sleeps until no finalizer is pending if none is.** -/
theorem pending_of_stuck (s : EngineSpec) (label : String) (moves : List Move)
    (hstuck : ∀ u, ((start s label).after moves).canMove u = false)
    (hsleeps : ((start s label).after moves).SleepsUntilDrained t e) :
    ∃ x, ((start s label).after moves).engines[e]? = some x ∧ x.finalization.pending ≠ 0 := by
  obtain ⟨x, hx, hmem⟩ := mem_awaitingDrain_of_sleeps hsleeps
  refine ⟨x, hx, ?_⟩
  rcases watched_after s label moves x.board (Serial.exists_board hx) (List.ne_nil_of_mem hmem) with
    hsome | ⟨u, rest, r, hu⟩
  · exact hsome
  · have hnext := nextTask_of_stackOf ((threads_floor u).symm.trans hu)
    have hmoves := hstuck u
    unfold canMove at hmoves
    unfold nextTask at hnext
    rw [hnext] at hmoves
    cases hmoves

end World

end Sleepers

section Calls

variable {engines : Array Runtime} {t e ms : Nat} {task : Task} {front tasks : List Task}
  {r : Reply} {a : Option Reply} {c : Notch} {x : Runtime} {Seen Seen' : Prop}

/-- Whether a task leads out of a region in which a thread has waited. -/
def Task.isParting : Task → Bool
  | .registry _ (.leaveBlocking _ .any) | .registry _ (.parked _ .any) | .endRegion => true
  | _ => false

theorem Task.Produces.parting (h : task.Produces engines t r tasks a c)
    (htask : task.isParting = true) : tasks.all Task.isParting = true ∧ a = none := by
  have hplain : task.isSide = false ∧ task.isProgram = false ∧ task.isAllocation = false := by
    cases task <;> first | exact ⟨rfl, rfl, rfl⟩ | cases htask
  cases h with
  | aside hside => cases hplain.1.symm.trans hside
  | proceeds hprogram => cases hplain.2.1.symm.trans hprogram
  | refusesObject hallocates | stores hallocates => cases hplain.2.2.symm.trans hallocates
  | passes hpolls | polls hpolls => rcases hpolls with rfl | ⟨_, rfl⟩ <;> cases htask
  | strays | leaves => exact ⟨rfl, rfl⟩
  | @operates k op _ x expired registry p hx hstep =>
    cases Registry.section_of_step hstep with
    | @stays _ hold | @sleepsOn _ hold =>
      cases hold with
      | any => exact ⟨rfl, rfl⟩
      | pause => cases htask
    | leaves | goesOn => exact ⟨rfl, rfl⟩
    | misses hop => rcases hop with rfl | rfl <;> cases htask
    | _ => cases htask
  | _ => cases htask

/-- What stands on the stack of a thread, above what it does afterwards, while it waits until no
finalizer of an engine is pending.  `Seen` is what is known when it has found that none is. -/
inductive AwaitsDrain (e ms : Nat) (Seen : Prop) : List Task → Reply → Prop
  | asks {r : Reply} : AwaitsDrain e ms Seen [.runFinalization e ms] r
  | blocks {r : Reply} : AwaitsDrain e ms Seen [.blocking .any (.awaitDrain e ms)] r
  | enters {k : Nat} {id : ThreadId}
      {r : Reply} : AwaitsDrain e ms Seen [.registry k (.enterBlocking id), .awaitDrain e ms,
        .registry k (.leaveBlocking id .any), .endRegion] r
  | waits {back : List Task} {r : Reply} (hback : back.all Task.isParting = true) :
      AwaitsDrain e ms Seen (.awaitDrain e ms :: back) r
  | leaves {back : List Task} {r : Reply} (hback : back.all Task.isParting = true)
      (hseen : r = .flag true → Seen) : AwaitsDrain e ms Seen back r

namespace AwaitsDrain

theorem imp (h : AwaitsDrain e ms Seen front r) (himp : Seen → Seen') :
    AwaitsDrain e ms Seen' front r := by
  cases h with
  | asks => exact .asks
  | blocks => exact .blocks
  | enters => exact .enters
  | waits hback => exact .waits hback
  | leaves hback hseen => exact .leaves hback fun hr => himp (hseen hr)

theorem ne_perform (h : AwaitsDrain e ms Seen (task :: front) r) (i : Instruction) :
    task ≠ .perform i := by
  rintro rfl
  cases h with
  | leaves hback => cases hback

/-- **A step leads a call that waits from one place to the next.** -/
theorem step (h : AwaitsDrain e ms Seen (task :: front) r) (hx : engines[e]? = some x)
    (hproduces : task.Produces engines t r tasks a c) (hseen : x.finalization.pending = 0 → Seen) :
    AwaitsDrain e ms Seen (tasks ++ front) (a.getD r) := by
  cases h with
  | asks =>
    cases hproduces with
    | finds hx' hnone =>
      cases hx.symm.trans hx'
      exact .leaves rfl fun _ => hseen hnone
    | despairs => exact .leaves rfl nofun
    | waits => exact .blocks
    | _ => first | contradiction | simp_all [Task.engine?]
  | blocks =>
    cases hproduces with
    | enters => exact .enters
    | nests => exact .waits rfl
    | _ => first | contradiction | simp_all
  | enters =>
    cases hproduces with
    | strays => exact .waits rfl
    | operates hy hstep =>
      cases Registry.section_of_step hstep with
      | misses hop => simp at hop
      | blocks => exact .waits rfl
    | _ => first | contradiction | simp_all
  | waits hback =>
    cases hproduces with
    | sees hx' hnone =>
      cases hx.symm.trans hx'
      exact .leaves hback fun _ => hseen hnone
    | expires => exact .leaves hback nofun
    | sleeps => exact .waits hback
    | _ => first | contradiction | simp_all [Task.engine?]
  | leaves hback hknown =>
    rw [List.all_cons, Bool.and_eq_true] at hback
    obtain ⟨htasks, rfl⟩ := hproduces.parting hback.1
    refine .leaves ?_ hknown
    rw [List.all_append, htasks, hback.2]
    rfl

end AwaitsDrain

namespace World

variable {w : World} {rest : List Task} {during : List Move}

/-- Whether a thread begins to wait until no finalizer of an engine is pending, above the given
tasks on its stack, and moves after which this call returns, and says that none is. -/
structure ReturnsDrained (w : World) (t e ms : Nat) (rest : List Task) (during : List Move) :
    Prop where
  begins : ∃ r, w.stackOf t = some ⟨.runFinalization e ms :: rest, r⟩
  /-- Meanwhile the call has not returned. -/
  lasts : ∀ past m, past ++ [m] <+: during → ∀ r, (w.after past).stackOf t ≠ some ⟨rest, r⟩
  returns : (w.after during).stackOf t = some ⟨rest, .flag true⟩

/-- Whether no finalizer of an engine was pending at some moment. -/
def HasDrained (w : World) (e : Nat) (past : List Move) : Prop :=
  ∃ moment x, moment <+: past ∧ (w.after moment).engines[e]? = some x ∧ x.finalization.pending = 0

theorem HasDrained.mono (h : w.HasDrained e past) (hle : past <+: more) : w.HasDrained e more := by
  obtain ⟨moment, x, hmoment, hx⟩ := h
  exact ⟨moment, x, hmoment.trans hle, hx⟩

theorem ReturnsDrained.drains (h : w.ReturnsDrained t e ms rest during) (he : e < w.engines.size)
    (hpast : past <+: during) : ∃ front r, (w.after past).stackOf t = some ⟨front ++ rest, r⟩ ∧
      AwaitsDrain e ms (w.HasDrained e past) front r := by
  induction past using List.reverseRecOn with
  | nil =>
    obtain ⟨r, hs⟩ := h.begins
    exact ⟨[.runFinalization e ms], r, hs, .asks⟩
  | append_singleton past m ih =>
    obtain ⟨front, r, hs, hdrains⟩ := ih ((List.prefix_append ..).trans hpast)
    have hle : past <+: past ++ [m] := List.prefix_append ..
    cases front with
    | nil => exact (h.lasts past m hpast r hs).elim
    | cons task front =>
      rw [after_append]
      cases continues_move hs hdrains.ne_perform m with
      | rests _ hs' => exact ⟨task :: front, r, hs', hdrains.imp fun hseen => hseen.mono hle⟩
      | @steps tasks a c hm hstep hproduces hs' =>
        have hlt := Nat.lt_of_lt_of_le he (size_engines_le_run w past)
        have hx := Array.getElem?_eq_getElem hlt
        refine ⟨tasks ++ front, a.getD r, by rw [List.append_assoc]; exact hs', ?_⟩
        exact (hdrains.imp fun hseen => hseen.mono hle).step hx hproduces fun hnone =>
          ⟨past, _, hle, hx, hnone⟩

/-- **A call that says that no finalizer is pending has found so.** -/
theorem ReturnsDrained.hasDrained (h : w.ReturnsDrained t e ms rest during)
    (he : e < w.engines.size) : w.HasDrained e during := by
  obtain ⟨front, r, hs, hdrains⟩ := h.drains he (List.prefix_refl during)
  obtain ⟨hfront, rfl⟩ := Stack.mk.inj (Option.some.inj (hs.symm.trans h.returns))
  obtain rfl : front = [] := List.append_left_eq_self.mp hfront
  cases hdrains with
  | leaves _ hseen => exact hseen rfl

end World

end Calls

section Tending

/-- How statistics count a job that was run or dropped. -/
inductive Outcome : Fate → (Statistics → Statistics) → Prop
  | completes : Outcome .begun Statistics.recordCompleted
  | panics : Outcome .begun Statistics.recordPanicked
  /-- Jobs are dropped in batches. -/
  | discards {n : Nat} (hn : 0 < n) : Outcome .dropped (·.recordDiscarded n)

/-- Whether a task counts a job of an engine that was run or dropped. -/
inductive Task.Counts (e : Nat) : Fate → Task → Prop
  | completes {o : ObjectId} : Counts e .begun (.concludeJob e o none)
  | panics : Counts e .begun (.countPanic e)
  | discards {n : Nat} (hn : 0 < n) : Counts e .dropped (.discardJobs e [] n)

/-- What stands on the stack of a thread, above what stood under a job when it was begun with, until
the job is off the counter.  `Cleared`, `Given` and `Counted` are what is known when its object is
done with its finalizer, when its root was given back, and when it was counted. -/
inductive Tending (e : Nat) (j : Job Finalizer) (Cleared Given Counted : Prop) :
    Fate → List Task → Prop
  | above (h : Tending e j Cleared Given Counted fate front) :
      Tending e j Cleared Given Counted fate (task :: front)
  | body : Tending e j Cleared Given Counted .begun [.body e j actions results]
  | resumes : Tending e j Cleared Given Counted .begun [.bodyResumes e j actions results]
  | finishes : Tending e j Cleared Given Counted .begun [.finishObject j.object, .dropRoot j.object,
        .concludeJob e j.object.object p, .retire e 1, .announce e]
  | gives (hcleared : Cleared) :
      Tending e j Cleared Given Counted .begun
        [.dropRoot j.object, .concludeJob e j.object.object p, .retire e 1, .announce e]
  | concludes (hgiven : Given) : Tending e j Cleared Given Counted .begun
      [.concludeJob e j.object.object p, .retire e 1, .announce e]
  | panics (hgiven : Given) :
      Tending e j Cleared Given Counted .begun [.countPanic e, .retire e 1, .announce e]
  | drops {n : Nat} (hn : 0 < n) (hcleared : Cleared) :
      Tending e j Cleared Given Counted .dropped [.dropJobs [j], .discardJobs e jobs n]
  | dropsRoot {n : Nat} (hn : 0 < n) (hcleared : Cleared) :
      Tending e j Cleared Given Counted .dropped
        [.dropRoot j.object, .dropFinalizers [j.finalizer], .dropJobs [], .discardJobs e jobs n]
  | dropsMore {n : Nat} (hn : 0 < n) (hgiven : Given) :
      Tending e j Cleared Given Counted .dropped [.discardJobs e jobs n]
  | counted (hcounted : Counted) : Tending e j Cleared Given Counted fate front

namespace Tending

variable {engines : Array Runtime} {t e : Nat} {j : Job Finalizer} {task : Task}
  {front tasks : List Task} {r : Reply} {a : Option Reply} {c : Notch} {fate : Fate}
  {Cleared Given Counted Cleared' Given' Counted' : Prop}

theorem imp (h : Tending e j Cleared Given Counted fate front)
    (hcleared : Cleared → Cleared') (hgiven : Given → Given')
    (hcounted : Counted → Counted') : Tending e j Cleared' Given' Counted' fate front := by
  induction h with
  | above _ ih => exact .above ih
  | body => exact .body
  | resumes => exact .resumes
  | finishes => exact .finishes
  | gives h => exact .gives (hcleared h)
  | concludes h => exact .concludes (hgiven h)
  | panics h => exact .panics (hgiven h)
  | drops hn h => exact .drops hn (hcleared h)
  | dropsRoot hn h => exact .dropsRoot hn (hcleared h)
  | dropsMore hn h => exact .dropsMore hn (hgiven h)
  | counted h => exact .counted (hcounted h)

theorem append (h : Tending e j Cleared Given Counted fate front) (tasks : List Task) :
    Tending e j Cleared Given Counted fate (tasks ++ front) := by
  induction tasks with
  | nil => exact h
  | cons task tasks ih => exact .above ih

theorem counted_of_nil (h : Tending e j Cleared Given Counted fate []) : Counted := by
  cases h with
  | counted hcounted => exact hcounted

theorem counted_of_weight (h : Tending e j Cleared Given Counted fate front)
    (hweight : ∀ task ∈ front, ∀ c, task.charge? e = some c → c.weight = 0) : Counted := by
  induction h with
  | above _ ih => exact ih fun task htask => hweight task (List.mem_cons_of_mem _ htask)
  | body | resumes =>
    have hzero := hweight _ List.mem_cons_self .body (by simp)
    cases hzero
  | finishes | gives | concludes | panics =>
    have hzero := hweight (.retire e 1) (by simp) (.retire 1) (by simp)
    cases hzero
  | @drops jobs n hn | @dropsRoot jobs n hn | @dropsMore jobs n hn =>
    have hzero := hweight (.discardJobs e jobs n) (by simp) (.discard jobs n) (by simp)
    cases hzero
    cases hn
  | counted hcounted => exact hcounted

/-- **A step leads a job from one place to the next.** -/
theorem step (h : Tending e j Cleared Given Counted fate (task :: front))
    (hproduces : task.Produces engines t r tasks a c)
    (hcleared : Cleared ∨ (task = .finishObject j.object ∧ .dropRoot j.object ∈ front) → Cleared')
    (hgiven : Given ∨ (Cleared ∧ task = .dropRoot j.object) → Given')
    (hcounted : Counted ∨ (Given ∧ task.Counts e fate) → Counted') :
    Tending e j Cleared' Given' Counted' fate (tasks ++ front) := by
  cases h with
  | above h =>
    exact (h.imp (fun hc => hcleared (.inl hc)) (fun hg => hgiven (.inl hg)) fun hc =>
      hcounted (.inl hc)).append tasks
  | body =>
    cases hproduces with
    | goesOn => exact .body
    | enqueues | collectsInside => exact .above (.above .resumes)
    | allocatesInside => exact .above (.above (.above .resumes))
    | ends => exact .above .finishes
    | _ => first | contradiction | simp_all
  | resumes =>
    cases hproduces with
    | comesBack => exact .body
    | _ => first | contradiction | simp_all
  | finishes =>
    cases hproduces with
    | finishesObject => exact .gives (hcleared (.inr ⟨rfl, List.mem_cons_self⟩))
    | _ => first | contradiction | simp_all
  | gives hc =>
    cases hproduces with
    | dropsRoot => exact .concludes (hgiven (.inr ⟨hc, rfl⟩))
    | _ => first | contradiction | simp_all
  | concludes hg =>
    cases hproduces with
    | completes => exact .counted (hcounted (.inr ⟨hg, .completes⟩))
    | panics => exact .above (.panics (hgiven (.inl hg)))
    | _ => first | contradiction | simp_all
  | panics hg =>
    cases hproduces with
    | countsPanic => exact .counted (hcounted (.inr ⟨hg, .panics⟩))
    | _ => first | contradiction | simp_all
  | drops hn hc =>
    cases hproduces with
    | drops => exact .dropsRoot hn (hcleared (.inl hc))
    | _ => first | contradiction | simp_all
  | dropsRoot hn hc =>
    cases hproduces with
    | dropsRoot => exact .above (.above (.dropsMore hn (hgiven (.inr ⟨hc, rfl⟩))))
    | _ => first | contradiction | simp_all
  | dropsMore hn hg =>
    cases hproduces with
    | discards => exact .above (.dropsMore hn (hgiven (.inl hg)))
    | discarded => exact .counted (hcounted (.inr ⟨hg, .discards hn⟩))
    | _ => first | contradiction | simp_all
  | counted hc => exact .counted (hcounted (.inl hc))

end Tending

namespace World

variable {w : World} {t e : Nat} {o : Root} {since past more : List Move} {fate : Fate} {r : Reply}
  {rest : List Task} {task : Task}

section Events

/-- Whether the step that a thread makes after moves clears the mark that an object has a pending
finalizer. -/
def ClearsMark (w : World) (t : Nat) (o : Root) (past : List Move) : Prop :=
  ∃ x y, (w.after past).engines[o.heap]? = some x ∧ x.heap.isLive o.object = true ∧
    (w.after (past ++ [.step t])).engines[o.heap]? = some y ∧
    y = { x with heap := x.heap.finishFinalization o.object } ∧
    y.heap.isFinalizerPending o.object = false

/-- Whether the step that a thread makes after moves gives a root back. -/
def GivesRootBack (w : World) (t : Nat) (o : Root) (past : List Move) : Prop :=
  ∃ x, (w.after past).engines[o.heap]? = some x ∧ x.heap.isLive o.object = true ∧
    (w.after (past ++ [.step t])).engines[o.heap]? = some { x with heap := x.heap.unpin o.object }

/-- Whether the step that a thread makes after moves counts a job that was run or dropped. -/
def CountsOutcome (w : World) (t e : Nat) (fate : Fate) (past : List Move) : Prop :=
  ∃ x f, (w.after past).engines[e]? = some x ∧ Outcome fate f ∧
    (w.after (past ++ [.step t])).engines[e]? = some { x with statistics := f x.statistics }

/-- Whether a thread has cleared the mark of an object. -/
def HasCleared (w : World) (t : Nat) (o : Root) (since past : List Move) : Prop :=
  ∃ p, since <+: p ∧ p ++ [.step t] <+: past ∧ w.ClearsMark t o p

/-- Whether a thread has cleared the mark of an object, and then given a root of it back. -/
def HasGivenBack (w : World) (t : Nat) (o : Root) (since past : List Move) : Prop :=
  ∃ p, p ++ [.step t] <+: past ∧ w.HasCleared t o since p ∧ w.GivesRootBack t o p

/-- Whether a thread has seen a job through: it has cleared the mark of the object, then given its
root back, and then counted the job. -/
def HasSeenThrough (w : World) (t e : Nat) (o : Root) (fate : Fate) (since past : List Move) :
    Prop :=
  ∃ p, p ++ [.step t] <+: past ∧ w.HasGivenBack t o since p ∧ w.CountsOutcome t e fate p

theorem HasCleared.mono (h : w.HasCleared t o since past) (hle : past <+: more) :
    w.HasCleared t o since more := by
  obtain ⟨p, hsince, hp, hclears⟩ := h
  exact ⟨p, hsince, hp.trans hle, hclears⟩

theorem HasGivenBack.mono (h : w.HasGivenBack t o since past) (hle : past <+: more) :
    w.HasGivenBack t o since more := by
  obtain ⟨p, hp, hgives⟩ := h
  exact ⟨p, hp.trans hle, hgives⟩

theorem HasSeenThrough.mono (h : w.HasSeenThrough t e o fate since past) (hle : past <+: more) :
    w.HasSeenThrough t e o fate since more := by
  obtain ⟨p, hp, hcounts⟩ := h
  exact ⟨p, hp.trans hle, hcounts⟩

theorem exists_live_of_asset {s : Stack} {x : Asset} (hc : w.core.Coherent 0)
    (hs : w.stackOf t = some s) (htask : task ∈ s.tasks) (hx : x ∈ task.assets) (ho : o ∈ x.roots) :
    ∃ y, w.engines[o.heap]? = some y ∧ y.heap.isLive o.object = true := by
  have hthread : s ∈ w.core.threads := by
    obtain ⟨y, hy, rfl⟩ := Option.map_eq_some_iff.mp hs
    exact Array.mem_map.mpr ⟨y, Array.mem_of_getElem? hy, rfl⟩
  have hassets : x ∈ w.core.assets := by
    refine Multiset.mem_add.mpr
      (.inr (Multiset.mem_add.mpr (.inr (mem_total.mpr ⟨s, hthread, ?_⟩))))
    exact Multiset.mem_add.mpr
      (.inl (Multiset.mem_coe.mpr (List.mem_flatMap.mpr ⟨task, htask, hx⟩)))
  obtain ⟨y, hy, hlive⟩ := hc.balanced.live (Core.mem_roots_of_owned ⟨x, by rwa [add_zero], ho⟩)
  obtain ⟨z, hz, rfl⟩ := exists_engine_of_heap hy
  exact ⟨z, hz, hlive⟩

theorem isFinalizerPending_finishFinalization (h : Heap Finalizer) (id : ObjectId) :
    (h.finishFinalization id).isFinalizerPending id = false := by
  unfold Heap.isFinalizerPending Heap.finishFinalization
  simp only [Space.get?_update, if_true]
  cases h.space.get? id <;> rfl

theorem engine_after_step (hx : (w.after past).engines[k]? = some x)
    (h : ((w.after past).move (.step t)).engines = (w.after past).engines.modify k f) :
    (w.after (past ++ [.step t])).engines[k]? = some (f x) := by
  rw [after_append]
  show ((w.after past).move (.step t)).engines[k]? = some (f x)
  rw [h, Array.getElem?_modify, if_pos rfl, hx]
  rfl

variable (hc : (w.after past).core.Coherent 0)

include hc

theorem clearsMark_of_engines {s : Stack} {x : Asset} (hs : (w.after past).stackOf t = some s)
    (htask : task ∈ s.tasks) (hx : x ∈ task.assets) (ho : o ∈ x.roots)
    (hengines : ((w.after past).move (.step t)).engines = (w.after past).engines.modify o.heap
      fun x => { x with heap := x.heap.finishFinalization o.object }) : w.ClearsMark t o past := by
  obtain ⟨x, hx, hlive⟩ := exists_live_of_asset hc hs htask hx ho
  exact ⟨x, _, hx, hlive, engine_after_step hx hengines, rfl,
    isFinalizerPending_finishFinalization ..⟩

theorem clearsMark_of_finishObject
    (hs : (w.after past).stackOf t = some ⟨.finishObject o :: rest, r⟩) (hroot : .dropRoot o ∈ rest)
    (hstep : ((w.after past).step t).isSome = true) : w.ClearsMark t o past := by
  obtain ⟨after, hrun, -, hengines⟩ := exists_runTask hs hstep
  cases hrun
  exact clearsMark_of_engines hc hs (List.mem_cons_of_mem _ hroot) List.mem_cons_self
    List.mem_cons_self hengines

theorem clearsMark_of_discardJobs {j : Job Finalizer} {jobs : List (Job Finalizer)}
    (hs : (w.after past).stackOf t = some ⟨.discardJobs e (j :: jobs) n :: rest, r⟩)
    (hstep : ((w.after past).step t).isSome = true) : w.ClearsMark t j.object past := by
  obtain ⟨after, hrun, -, hengines⟩ := exists_runTask hs hstep
  cases hrun
  exact clearsMark_of_engines hc hs List.mem_cons_self List.mem_cons_self List.mem_cons_self
    hengines

theorem givesRootBack_of_dropRoot (hs : (w.after past).stackOf t = some ⟨.dropRoot o :: rest, r⟩)
    (hstep : ((w.after past).step t).isSome = true) : w.GivesRootBack t o past := by
  obtain ⟨x, hx, hlive⟩ := exists_live_of_asset hc hs List.mem_cons_self List.mem_cons_self
    List.mem_cons_self
  obtain ⟨after, hrun, -, hengines⟩ := exists_runTask hs hstep
  cases hrun
  exact ⟨x, hx, hlive,
    engine_after_step (f := fun x => { x with heap := x.heap.unpin o.object }) hx hengines⟩

omit hc

theorem countsOutcome_of_counts (htask : task.Counts e fate) (he : e < (w.after past).engines.size)
    (hs : (w.after past).stackOf t = some ⟨task :: rest, r⟩)
    (hstep : ((w.after past).step t).isSome = true) : w.CountsOutcome t e fate past := by
  have hx := Array.getElem?_eq_getElem he
  obtain ⟨after, hrun, -, hengines⟩ := exists_runTask hs hstep
  have counts : ∀ {f}, Outcome fate f → ((w.after past).move (.step t)).engines =
      (w.after past).engines.modify e (fun x => { x with statistics := f x.statistics }) →
      w.CountsOutcome t e fate past :=
    fun hf hchange => ⟨_, _, hx, hf, engine_after_step hx hchange⟩
  cases htask with
  | completes =>
    cases hrun
    exact counts .completes hengines
  | panics =>
    cases hrun
    exact counts .panics hengines
  | discards hn =>
    cases hrun
    exact counts (.discards hn) hengines

end Events

section Runs

variable {s : EngineSpec} {label : String} {j : Job Finalizer} {m : Move}

/-- Whether a thread tends a job, above the given tasks on its stack. -/
def Tends (w : World) (t e : Nat) (j : Job Finalizer) (fate : Fate) (rest : List Task)
    (since past : List Move) : Prop :=
  ∃ front r, (w.after past).stackOf t = some ⟨front ++ rest, r⟩ ∧
    Tending e j (w.HasCleared t j.object since past) (w.HasGivenBack t j.object since past)
      (w.HasSeenThrough t e j.object fate since past) fate front

variable (h : (start s label).Tends t e j fate rest since past)

include h

theorem Tends.move (hsince : since <+: past) (he : e < ((start s label).after past).engines.size) :
    (start s label).Tends t e j fate rest since (past ++ [m]) ∨
    (start s label).HasSeenThrough t e j.object fate since (past ++ [m]) := by
  obtain ⟨front, r, hs, htending⟩ := h
  have hle : past <+: past ++ [m] := List.prefix_append ..
  have hkept := htending.imp (fun hc => hc.mono hle) (fun hg => hg.mono hle) fun hc => hc.mono hle
  cases front with
  | nil => exact .inr hkept.counted_of_nil
  | cons task front =>
    by_cases hperform : ∃ i, task = .perform i
    · -- an instruction is the last task of its stack
      obtain ⟨i, rfl⟩ := hperform
      have hnothing : front ++ rest = [] :=
        (arranged_after (isKept_defers (start s label)) past _ hs).1
      obtain ⟨rfl, rfl⟩ := List.append_eq_nil_iff.mp hnothing
      cases hkept with
      | above h => exact .inr h.counted_of_nil
      | counted h => exact .inr h
    · have hc := coherent_after s label past
      cases continues_move hs (fun i hi => hperform ⟨i, hi⟩) m with
      | rests _ hs' => exact .inl ⟨task :: front, r, by rw [after_append]; exact hs', hkept⟩
      | @steps tasks a c hm hstep hproduces hs' =>
        subst hm
        refine .inl ⟨tasks ++ front,
          a.getD r, by rw [after_append, List.append_assoc]; exact hs', ?_⟩
        refine htending.step hproduces ?_ ?_ ?_
        · rintro (hdone | ⟨rfl, hroot⟩)
          · exact hdone.mono hle
          · exact ⟨past, hsince, List.prefix_refl _,
              clearsMark_of_finishObject hc hs (List.mem_append_left _ hroot) hstep⟩
        · rintro (hdone | ⟨hcleared, rfl⟩)
          · exact hdone.mono hle
          · exact ⟨past, List.prefix_refl _, hcleared, givesRootBack_of_dropRoot hc hs hstep⟩
        · rintro (hdone | ⟨hgiven, hcounts⟩)
          · exact hdone.mono hle
          · exact ⟨past, List.prefix_refl _, hgiven, countsOutcome_of_counts hcounts he hs hstep⟩

theorem Tends.after (hsince : since <+: past) (he : e < ((start s label).after past).engines.size)
    (more : List Move) : (start s label).Tends t e j fate rest since (past ++ more) ∨
    (start s label).HasSeenThrough t e j.object fate since (past ++ more) := by
  induction more using List.reverseRecOn with
  | nil => exact .inl (by rwa [List.append_nil])
  | append_singleton more m ih =>
    rw [← List.append_assoc]
    rcases ih with htends | hdone
    · refine htends.move (hsince.trans (List.prefix_append ..)) (Nat.lt_of_lt_of_le he ?_)
      rw [after_append]
      exact size_engines_le_run _ more
    · exact .inr (hdone.mono (List.prefix_append ..))

omit h

theorem exists_task_of_postings (h : w.postings e (.step t) = [⟨fate, [j]⟩])
    (hfate : fate = .begun ∨ fate = .dropped) : (w.step t).isSome = true ∧
    ∃ rest r, (fate = .begun ∧ w.stackOf t = some ⟨.runJob e j :: rest, r⟩) ∨
    (fate = .dropped ∧ ∃ jobs n, w.stackOf t = some ⟨.discardJobs e (j :: jobs) n :: rest, r⟩) := by
  rw [postings] at h
  split at h
  · next hstep =>
      refine ⟨hstep, ?_⟩
      cases hnext : w.nextTask t with
      | none => rw [hnext] at h; cases h
      | some task =>
        rw [hnext] at h
        obtain ⟨x, hx, hhead⟩ := Option.bind_eq_some_iff.mp hnext
        obtain ⟨rest, htasks⟩ := List.head?_eq_some_iff.mp hhead
        have hs : w.stackOf t = some ⟨task :: rest, x.reply⟩ := by
          rw [stackOf, hx, Option.map_some, Thread.stack, htasks]
        refine ⟨rest, x.reply, ?_⟩
        rw [hs]
        replace h : w.postingsOf e task = [⟨fate, [j]⟩] := h
        unfold postingsOf at h
        grind
  · cases h

theorem exists_engine_of_charge (hs : ((start s label).after past).stackOf t = some s')
    (htask : task ∈ s'.tasks) (hc : task.charge? e = some c) :
    e < ((start s label).after past).engines.size := by
  by_contra hnone
  have haccount : (((start s label).after past).slate e).account = none := by
    rw [slate, Array.getElem?_eq_none (Nat.le_of_not_lt hnone), Option.map_none]
  have hheld := (slate_sound_after s label e past).grounded haccount t
  obtain ⟨x, hx, rfl⟩ := Option.map_eq_some_iff.mp hs
  rw [held_slate, tasksOf, hx] at hheld
  have hmem : c ∈ x.tasks.filterMap (Task.charge? e) := List.mem_filterMap.mpr ⟨task, htask, hc⟩
  rw [show x.tasks.filterMap (Task.charge? e) = [] from hheld] at hmem
  cases hmem

theorem length_le_of_discardJobs
    (hs : ((start s label).after past).stackOf t = some ⟨.discardJobs e jobs n :: rest, r⟩) :
    jobs.length ≤ n := by
  have horderly := (slate_sound_after s label e past).orderly t
  obtain ⟨x, hx, htasks, -⟩ := exists_thread_of_stackOf hs
  rw [held_slate, tasksOf, hx, Option.elim_some, htasks,
    List.filterMap_cons_some (by simp; rfl)] at horderly
  exact horderly.1

theorem tends_of_postings (h : ((start s label).after past).postings e (.step t) = [⟨fate, [j]⟩])
    (hfate : fate = .begun ∨ fate = .dropped) : e < ((start s label).after past).engines.size ∧
      ∃ rest, (start s label).Tends t e j fate rest past (past ++ [.step t]) := by
  obtain ⟨hstep, rest, r, ⟨rfl, hs⟩ | ⟨rfl, jobs, n, hs⟩⟩ := exists_task_of_postings h hfate
  · refine ⟨exists_engine_of_charge hs List.mem_cons_self (c := .job j) (by simp), rest, ?_⟩
    obtain ⟨after, hrun, hstack, -⟩ := exists_runTask hs hstep
    simp only [runTask, runJob] at hrun
    split at hrun <;> cases hrun
    refine ⟨[.body e j j.finalizer.actions []], r, ?_, .body⟩
    rw [after_append]
    exact hstack.trans (stackOf_push (stackOf_take hs) _)
  · refine ⟨exists_engine_of_charge hs List.mem_cons_self (c := .discard (j :: jobs) n) (by simp),
      rest, ?_⟩
    have hlength := length_le_of_discardJobs hs
    have hclears := clearsMark_of_discardJobs (coherent_after s label past) hs hstep
    obtain ⟨after, hrun, hstack, -⟩ := exists_runTask hs hstep
    cases hrun
    refine ⟨[.dropJobs [j], .discardJobs e jobs n], r, ?_,
      .drops (Nat.lt_of_lt_of_le (Nat.succ_pos _) hlength) ⟨past, List.prefix_refl _,
        List.prefix_refl _, hclears⟩⟩
    rw [after_append]
    refine hstack.trans (stackOf_push ?_ _)
    exact stackOf_take hs

variable (hx : ((start s label).after moment).engines[e]? = some x)

include hx

/-- When nothing is on the counter no thread has a charge that keeps something there. -/
theorem weight_of_drained (hnone : x.finalization.pending = 0)
    (hs : ((start s label).after moment).stackOf t = some s')
    (htask : task ∈ s'.tasks) (hc : task.charge? e = some c) : c.weight = 0 := by
  have hcounter := (slate_sound_after s label e moment).counter
  rw [account_slate hx] at hcounter
  have hsum : (((start s label).after moment).slate e).sum Charge.weight = 0 := by
    have hzero : Account.pendingOf (some x.account) = 0 := hnone
    omega
  obtain ⟨y, hy, rfl⟩ := Option.map_eq_some_iff.mp hs
  have hlist : (y.tasks.filterMap (Task.charge? e)) ∈
      (((start s label).after moment).slate e).charges.toList :=
    Array.mem_toList_iff.mpr (Array.mem_map.mpr ⟨y, Array.mem_of_getElem? hy, rfl⟩)
  have hthread := List.sum_eq_zero_iff.mp hsum _ (List.mem_map.mpr ⟨_, hlist, rfl⟩)
  exact List.sum_eq_zero_iff.mp hthread _
    (List.mem_map.mpr ⟨c, List.mem_filterMap.mpr ⟨task, htask, hc⟩, rfl⟩)

/-- **When nothing is on the counter, whatever was begun with or dropped is seen through.** -/
theorem hasSeenThrough_of_drained (hnone : x.finalization.pending = 0)
    (hpast : past ++ [.step t] <+: moment) (hfate : fate = .begun ∨ fate = .dropped)
    (h : ((start s label).after past).postings e (.step t) = [⟨fate, [j]⟩]) :
    (start s label).HasSeenThrough t e j.object fate past moment := by
  obtain ⟨he, rest, htends⟩ := tends_of_postings h hfate
  obtain ⟨more, rfl⟩ := hpast
  rcases htends.after (List.prefix_append ..)
    (Nat.lt_of_lt_of_le he (size_engines_le_after past _)) more with
    ⟨front, r, hs, htending⟩ | hdone
  · exact htending.counted_of_weight fun task htask c hc =>
      weight_of_drained hx hnone hs (List.mem_append_left _ htask) hc
  · exact hdone

end Runs

end World

end Tending

section Counting

def Task.outcomes (e : Nat) : Task → Nat
  | .concludeJob e' _ none | .countPanic e' => if e' = e then 1 else 0
  | .discardJobs e' [] n => if e' = e then n else 0
  | _ => 0

/-- How many jobs of an engine were begun with or dropped and are still to be counted, by a task. -/
@[simp]
def Task.uncounted (e : Nat) : Task → Nat
  | .body e' .. | .bodyResumes e' .. | .concludeJob e' .. | .countPanic e' =>
    if e' = e then 1 else 0
  | .discardJobs e' jobs n => if e' = e then n - jobs.length else 0
  | _ => 0

/-- How many jobs of an engine a task begins with or drops. -/
def Task.settled (e : Nat) : Task → Nat
  | .runJob e' _ | .discardJobs e' (_ :: _) _ => if e' = e then 1 else 0
  | _ => 0

/-- How many jobs of an engine the next task of a stack counts. -/
def Stack.outcomes (e : Nat) (s : Stack) : Nat := s.tasks.head?.elim 0 (Task.outcomes e)

/-- How many jobs of an engine the next task of a stack begins with or drops. -/
def Stack.settled (e : Nat) (s : Stack) : Nat := s.tasks.head?.elim 0 (Task.settled e)

/-- Whether a task neither runs nor drops nor counts jobs. -/
def Task.isIdle : Task → Bool
  | .runJob .. | .body .. | .bodyResumes .. | .concludeJob .. | .countPanic _ | .discardJobs .. =>
    false
  | _ => true

namespace Task

variable {e : Nat} {task : Task} {tasks : List Task}

theorem isIdle_of_isPlain (h : task.isPlain = true) : task.isIdle = true := by
  cases task <;> first | rfl | cases h

theorem isIdle_of_isAllocation (h : task.isAllocation = true) : task.isIdle = true := by
  cases task <;> first | rfl | cases h

theorem counts_of_isIdle (h : task.isIdle = true) :
    task.settled e = 0 ∧ task.uncounted e = 0 ∧ task.outcomes e = 0 := by
  cases task <;> first | exact ⟨rfl, rfl, rfl⟩ | cases h

end Task

namespace World

variable {w : World} {t e : Nat} {s : EngineSpec} {label : String}

/-- How many jobs of an engine were counted in moves as run or dropped. -/
def counted (w : World) (e : Nat) (moves : List Move) : Nat :=
  ((w.steps moves).map fun x => x.2.outcomes e).sum

theorem balanced_outcomes (s : EngineSpec) (label : String) (e : Nat) :
    (start s label).Balanced (fun x => (x.tasks.map (Task.uncounted e)).sum) (fun x =>
      x.2.settled e) fun x => x.2.outcomes e := by
  refine balanced_of_tasks (fun _ => rfl) (fun _ => rfl) (fun task h => ?_) rfl ?_
  · cases task <;> first | rfl | cases h
  · intro past t task rest tasks r a c hs h
    have hdefers := (arranged_after (isKept_defers (start s label)) past _ hs).1
    show task.settled e + task.uncounted e = task.outcomes e + (tasks.map (Task.uncounted e)).sum
    have idle : task.isIdle = true → (tasks.map (Task.uncounted e)).sum = 0 → task.settled e +
        task.uncounted e = task.outcomes e + (tasks.map (Task.uncounted e)).sum := by
      intro hidle htasks
      obtain ⟨hsettled, huncounted, houtcomes⟩ := Task.counts_of_isIdle hidle
      rw [hsettled, huncounted, houtcomes, htasks]
    have hinner : ∀ {hold inner}, (Task.blocking hold inner).Defers rest → inner.uncounted e = 0 :=
      fun h => (Task.counts_of_isIdle (Task.isIdle_of_isPlain (Task.isPlain_of_blocking h))).2.1
    have hplain : tasks.all Task.isPlain = true → (tasks.map (Task.uncounted e)).sum = 0 :=
      sum_eq_zero_of_all fun _ h => (Task.counts_of_isIdle (Task.isIdle_of_isPlain h)).2.1
    cases h with
    | aside htask htasks =>
      exact idle (Task.isIdle_of_isPlain (Task.isPlain_of_isSide htask))
        (hplain (all_imp Task.isPlain_of_isSide htasks))
    | proceeds htask htasks =>
      exact idle (Task.isIdle_of_isPlain (Task.isPlain_of_isProgram htask))
        (hplain (all_imp Task.isPlain_of_isProgram htasks))
    | refusesObject htask | stores htask => exact idle (Task.isIdle_of_isAllocation htask) rfl
    | strays htask => exact idle (by cases task <;> first | rfl | cases htask) rfl
    | passes htask | polls htask => rcases htask with rfl | ⟨_, rfl⟩ <;> rfl
    | @operates k op _ x expired registry p =>
      have hnothing : ∀ q : Progress, ((q.tasks k).map (Task.uncounted e)).sum = 0 :=
        fun q => by cases q <;> rfl
      exact idle rfl (hnothing p)
    | @enters hold _ _ _ inner =>
      refine idle rfl ?_
      show 0 + (inner.uncounted e + (0 + (0 + 0))) = 0
      rw [hinner hdefers]
    | @nests hold _ inner =>
      refine idle rfl ?_
      show inner.uncounted e + 0 = 0
      rw [hinner hdefers]
    | serves | drains => exact idle rfl (by simp [Function.comp_def])
    | refuses | bounces | drainsAway | drainsUnstarted => exact idle rfl (by simp)
    | @discards k j jobs n =>
      have hlength := length_le_of_discardJobs hs
      rw [List.length_cons] at hlength
      simp only [Task.settled, Task.outcomes, Task.uncounted, List.length_cons, List.map_cons,
        List.map_nil, List.sum_cons, List.sum_nil]
      split <;> omega
    | runs | goesOn | enqueues | collectsInside | allocatesInside | comesBack | completes | panics
    | countsPanic | discarded =>
      simp [Task.settled, Task.outcomes]
    | ends => simp [Task.settled, Task.outcomes, afterBody]
    | _ => rfl

theorem uncounted_of_weight (hweight : ∀ task ∈ tasks, ∀ c, task.charge? e = some c → c.weight = 0)
    (hsettles : Arranged (Task.Settles n) tasks) : (tasks.map (Task.uncounted e)).sum = 0 := by
  induction tasks with
  | nil => rfl
  | cons task rest ih =>
    rw [List.map_cons, List.sum_cons,
      ih (fun task htask => hweight task (List.mem_cons_of_mem _ htask)) hsettles.2, add_zero]
    have hretire : ∀ k, (∃ more, rest = .retire k 1 :: more) → k ≠ e := by
      rintro k ⟨more, rfl⟩ rfl
      have hzero := hweight (.retire k 1) (by simp) (.retire 1) (by simp)
      cases hzero
    have hzero := hweight task List.mem_cons_self
    cases task with
    | body k | bodyResumes k =>
      by_cases hk : k = e
      · cases hzero .body (by simp [hk])
      · simp [hk]
    | concludeJob k | countPanic k => simp [hretire k hsettles.1]
    | discardJobs k jobs n =>
      by_cases hk : k = e
      · have hn := hzero (.discard jobs n) (by simp [hk])
        simp_all
      · simp [hk]
    | _ => rfl

theorem card_postingsOf (w : World) (e : Nat) (task : Task) :
    (Posting.jobsOf .begun (w.postingsOf e task)).card +
      (Posting.jobsOf .dropped (w.postingsOf e task)).card = task.settled e := by
  cases task with
  | schedule k jobs _ =>
    cases jobs with
    | nil => rfl
    | cons j jobs =>
      simp only [postingsOf]
      (repeat' split) <;> rfl
  | runJob k j => by_cases hk : k = e <;> simp [postingsOf, Task.settled, hk]
  | discardJobs k jobs n =>
    cases jobs with
    | nil => rfl
    | cons j jobs => by_cases hk : k = e <;> simp [postingsOf, Task.settled, hk]
  | closeChannel k =>
    simp only [postingsOf]
    (repeat' split) <;> rfl
  | _ => rfl

theorem card_postings (w : World) (e : Nat) (m : Move) :
    (Posting.jobsOf .begun (w.postings e m)).card +
      (Posting.jobsOf .dropped (w.postings e m)).card = (w.taken m).elim 0 (Stack.settled e) := by
  cases m with
  | step t =>
    rw [postings, taken]
    split
    · have hnext : w.nextTask t = (w.stackOf t).bind fun x => x.tasks.head? := by
        unfold nextTask stackOf
        cases w.threads[t]? <;> rfl
      rw [hnext]
      cases hs : w.stackOf t with
      | none => rfl
      | some x =>
        rw [Option.bind_some, Option.elim_some, Stack.settled]
        cases x.tasks.head? with
        | none => rfl
        | some task =>
          rw [Option.elim_some, Option.elim_some]
          exact card_postingsOf w e task
    · rfl
  | _ => rfl

theorem card_fated (w : World) (e : Nat) (moves : List Move) :
    (w.fated e .begun moves).card + (w.fated e .dropped moves).card =
      ((w.steps moves).map fun x => x.2.settled e).sum := by
  induction moves using List.reverseRecOn with
  | nil => rfl
  | append_singleton moves m ih =>
    have hpostings := card_postings (w.after moves) e m
    unfold fated at ih ⊢
    have hone : (w.after moves).posted e [m] = (w.after moves).postings e m := List.append_nil _
    rw [posted_append, hone, Posting.jobsOf_append, Posting.jobsOf_append, Multiset.card_add,
      Multiset.card_add, sum_steps_snoc, ← ih, add_add_add_comm, hpostings]

/-- **When nothing is on the counter, whatever was begun with or dropped is counted.** -/
theorem counted_of_drained (hx : ((start s label).after moment).engines[e]? = some x)
    (hnone : x.finalization.pending = 0) :
    (start s label).counted e moment = ((start s label).fated e .begun moment).card +
      ((start s label).fated e .dropped moment).card := by
  have hload :
      ((start s label).after moment).load (fun x => (x.tasks.map (Task.uncounted e)).sum) = 0 := by
    refine load_eq_zero fun t y hy => ?_
    exact uncounted_of_weight (fun task htask c hc => weight_of_drained hx hnone hy htask hc)
      (arranged_after (isKept_settles s label) moment _ hy)
  rw [card_fated, (balanced_outcomes s label e).after moment, hload, add_zero]
  rfl

end World

end Counting

namespace Slate

variable {s s' : Slate} {ps : List Posting}

theorem Grows.arriving (h : s.Grows s') : s'.sum Charge.arriving = s.sum Charge.arriving := by
  induction h with
  | refl => rfl
  | tail _ opens ih =>
    cases opens with
    | account => exact ih
    | thread hcs =>
      rw [← ih]
      rcases hcs with rfl | ⟨rfl, -⟩ <;> simp [sum]

theorem Turn.arriving (h : Turn next m s ps s') :
    s'.sum Charge.arriving ≤ Posting.jobsOf .scheduled ps + s.sum Charge.arriving := by
  cases h with
  | grows hgrows =>
    rw [hgrows.arriving]
    exact Multiset.le_add_left ..
  | @steps t s a _ _ ht hshift =>
    rw [sum_push ht, sum_push (s := { s with account := a }) ht, ← add_assoc]
    exact Multiset.add_le_add_right hshift.arriving

end Slate

namespace World

variable {w : World} {t e ms : Nat} {s : EngineSpec} {label : String}

section Drained

/-- Jobs that are still to be counted after moves were scheduled in them, or were so before. -/
theorem arriving_le_after (s : EngineSpec) (label : String) (e : Nat) (entry more : List Move) :
    ((start s label).after (entry ++ more)).arriving e ≤ Posting.jobsOf .scheduled
    (((start s label).after entry).posted e more) + ((start s label).after entry).arriving e := by
  induction more using List.reverseRecOn with
  | nil =>
    rw [List.append_nil]
    exact Multiset.le_add_left ..
  | append_singleton more m ih =>
    have hturn := slate_turn_move (regular_after s label (entry ++ more))
      (slate_sound_after s label e (entry ++ more)).grounded m
    have hone : ((start s label).after (entry ++ more)).posted e [m] =
        ((start s label).after (entry ++ more)).postings e m := List.append_nil _
    rw [posted_append, ← after_append, hone, Posting.jobsOf_append, ← List.append_assoc,
      after_append]
    refine hturn.arriving.trans ?_
    rw [add_comm (Posting.jobsOf _ _) (Posting.jobsOf _ _), add_assoc]
    exact Multiset.add_le_add_left ih

/-- What was done of the jobs of an engine at some moment, after a call that waits for them was
made. -/
structure Drained (w : World) (e : Nat) (entry moment : List Move) : Prop where
  /-- Every job that was scheduled before the call was run or dropped, but for those of calls that
  had not got so far as to count them. -/
  settled : w.fated e .scheduled entry ≤
    (w.after entry).arriving e + (w.fated e .begun moment + w.fated e .dropped moment)
  /-- Whoever has run or dropped a job has cleared the mark of its object, given its root back and
  counted it. -/
  through : ∀ past t fate j, past ++ [.step t] <+: moment → fate = .begun ∨ fate = .dropped →
    (w.after past).postings e (.step t) = [⟨fate, [j]⟩] →
    w.HasSeenThrough t e j.object fate past moment
  /-- As many jobs were counted as were run or dropped. -/
  counted : w.counted e moment = (w.fated e .begun moment).card + (w.fated e .dropped moment).card

/-- **When nothing is on the counter, all that was counted has been seen through.** -/
theorem drained_of_pending (hle : entry <+: moment)
    (hx : ((start s label).after moment).engines[e]? = some x)
    (hnone : x.finalization.pending = 0) : (start s label).Drained e entry moment := by
  refine ⟨?_, fun past t fate j hpast hfate h => hasSeenThrough_of_drained hx hnone hpast hfate h,
    counted_of_drained hx hnone⟩
  have hsound := slate_sound_after s label e moment
  have hcounter := hsound.counter
  rw [account_slate hx, hsound.weight] at hcounter
  have hzero : Account.pendingOf (some x.account) = 0 := hnone
  have hcarried : (((start s label).after moment).slate e).sum Charge.carried = 0 :=
    Multiset.card_eq_zero.mp (by omega)
  have hsent : Account.sentOf (some x.account) = [] := List.length_eq_zero_iff.mp (by omega)
  have hlost : Posting.jobsOf .lost ((start s label).posted e moment) = 0 :=
    Multiset.card_eq_zero.mp (by omega)
  have hfates := hsound.fates
  rw [hcarried, account_slate hx, hsent, Posting.settled, hlost, Multiset.coe_nil, add_zero,
    add_zero, add_zero] at hfates
  obtain ⟨more, rfl⟩ := hle
  have harriving := arriving_le_after s label e entry more
  -- whatever was scheduled since is either still to be counted or among what is done
  refine (Multiset.add_le_add_iff_left
    (s := Posting.jobsOf .scheduled (((start s label).after entry).posted e more))).mp ?_
  calc
    _ = Posting.jobsOf .scheduled ((start s label).posted e (entry ++ more)) := by
      rw [fated, posted_append, Posting.jobsOf_append, add_comm]
    _ = ((start s label).after (entry ++ more)).arriving e +
        ((start s label).fated e .begun (entry ++ more) +
          (start s label).fated e .dropped (entry ++ more)) := hfates
    _ ≤ _ := by
      rw [← add_assoc (Posting.jobsOf _ _)]
      exact Multiset.add_le_add_right harriving

/-- What a run keeps to that waits for the finalizers of an engine. -/
structure DrainsSoundly (w : World) (e : Nat) : Prop where
  /-- When a call says that no finalizer is pending, at some moment since it was made all that was
  counted before it was run or dropped, the mark of its object was cleared, its root given back, and
  it was counted. -/
  sound : ∀ before during t ms rest, (w.after before).ReturnsDrained t e ms rest during →
    ∃ moment, before <+: moment ∧ moment <+: before ++ during ∧ w.Drained e before moment
  /-- When nothing can move, whoever sleeps in such a call waits for a finalizer that is pending. -/
  awake : ∀ moves t, (∀ u, (w.after moves).canMove u = false) →
    (w.after moves).SleepsUntilDrained t e →
    ∃ x, (w.after moves).engines[e]? = some x ∧ x.finalization.pending ≠ 0

/-- **Whoever is told that no finalizer is pending can rely on it, and nobody waits for what is
done.** -/
theorem drainsSoundly_after (s : EngineSpec) (label : String) (e : Nat) :
    (start s label).DrainsSoundly e where
  sound := by
    intro before during t ms rest h
    obtain ⟨r, hs⟩ := h.begins
    have he : e < ((start s label).after before).engines.size :=
      (arranged_after (isKept_settles s label) before _ hs).1
    obtain ⟨moment, x, hmoment, hx, hnone⟩ := h.hasDrained he
    rw [← after_append] at hx
    have hbefore : before <+: before ++ moment := List.prefix_append ..
    exact ⟨before ++ moment, hbefore, (List.prefix_append_right_inj before).mpr hmoment,
      drained_of_pending hbefore hx hnone⟩
  awake _ _ hstuck hsleeps := pending_of_stuck s label _ hstuck hsleeps

end Drained

end World

end ManagedHeap
