import ManagedHeap.Proofs.Attempts

/-!
# Objects that are too large

**Input.**  A thread that asks an engine for an object of any size, and what threads do meanwhile.

**Algorithm.**  The thread first comes to a safepoint; this leaves what engines keep as it is.  Then
it adds up the bytes of the object, with saturation at the largest word, and rounds the sum up.  A
sum within eight bytes of the end of the words cannot be rounded.

**Results.**  `Footprint.footprint_eq`: the sum fails exactly there.  `World.declines_run`: what is
larger than the heap is refused, and engines stay as they are; but the refusal is a fault if the
bytes cannot be rounded.
-/

namespace ManagedHeap

namespace Footprint

/-- Bytes of an object before they are rounded, as a number without bounds. -/
def bytes (payload fields : Nat) : Nat := headerBytes + payload + fields * referenceBytes

theorem saturatingAdd_eq (payload fields : Nat) :
    saturatingAdd (saturatingAdd headerBytes payload) (saturatingMul fields referenceBytes) =
      min (bytes payload fields) wordMax := by
  unfold saturatingAdd saturatingMul bytes
  omega

/-- **Only the rounding can fail, and it fails exactly at the end of the words.** -/
theorem footprint_eq (payload fields : Nat) : footprint payload fields =
      if bytes payload fields + alignment < Numeral.wordLimit then
        .ok ((bytes payload fields + alignment - 1) / alignment * alignment)
          else .error .addOverflow := by
  rw [footprint, saturatingAdd_eq, alignUp]
  have hlimit : wordMax + 1 = Numeral.wordLimit := rfl
  have halign : alignment = 8 := rfl
  by_cases h : bytes payload fields + alignment < Numeral.wordLimit
  · have hmin : min (bytes payload fields) wordMax = bytes payload fields := by omega
    rw [hmin, if_pos h]
  · rw [if_neg h, if_neg (by omega)]

theorem le_rounded (n : Nat) : n ≤ (n + alignment - 1) / alignment * alignment := by
  rw [show alignment = 8 from rfl]
  omega

theorem bytes_eq (payload fields : Nat) : bytes payload fields = 16 + payload + 8 * fields := by
  rw [bytes, Nat.mul_comm]
  rfl

/-- The bytes of an object, for words. -/
structure Exact (payload fields : UInt64) : Prop where
  faults : footprint payload.toNat fields.toNat = .error .addOverflow ↔
    2 ^ 64 - 8 ≤ 16 + payload.toNat + 8 * fields.toNat
  rounds : 16 + payload.toNat + 8 * fields.toNat < 2 ^ 64 - 8 →
    ∃ n, footprint payload.toNat fields.toNat = .ok n ∧ 16 ≤ n ∧
      IsLeast {m | 8 ∣ m ∧ 16 + payload.toNat + 8 * fields.toNat ≤ m} n
  /-- A smaller object fits wherever a larger one does, in no more bytes. -/
  monotone : ∀ payload' ≤ payload, ∀ fields' ≤ fields, ∀ n, footprint payload.toNat fields.toNat =
      .ok n → ∃ n' ≤ n, footprint payload'.toNat fields'.toNat = .ok n'

/-- **The bytes of an object are exact.**  They are the least multiple of eight that is not below
their unbounded sum, and there is a fault exactly if that sum is within eight bytes of the end of
the words. -/
theorem exact_footprint (payload fields : UInt64) : Exact payload fields := by
  have hlimit : Numeral.wordLimit = 2 ^ 64 := rfl
  have halign : alignment = 8 := rfl
  constructor
  case faults =>
    rw [footprint_eq, bytes_eq, halign, hlimit]
    split <;> simp <;> omega
  case rounds =>
    intro hsum
    rw [footprint_eq, bytes_eq, halign, if_pos (by omega)]
    refine ⟨_, rfl, by omega, ⟨Nat.dvd_mul_left _ _, by omega⟩, ?_⟩
    rintro m ⟨hdvd, hle⟩
    omega
  case monotone =>
    intro payload' hpayload fields' hfields n hn
    have hp : payload'.toNat ≤ payload.toNat := UInt64.le_iff_toNat_le.mp hpayload
    have hf : fields'.toNat ≤ fields.toNat := UInt64.le_iff_toNat_le.mp hfields
    rw [footprint_eq, bytes_eq, halign, hlimit] at hn
    rw [footprint_eq, bytes_eq, halign, hlimit]
    split at hn
    · next hsum =>
      cases hn
      rw [if_pos (by omega)]
      exact ⟨_, by omega, rfl⟩
    · cases hn

end Footprint

open Footprint (bytes alignment)

def Task.isPolling : Task → Bool
  | .checkpoint _ | .registry _ (.poll _) | .registry _ (.parked _ .any) => true
  | _ => false

theorem Task.Produces.isPolling {engines : Array Runtime} {t : Nat} {task : Task} {r : Reply}
    {tasks : List Task} {a : Option Reply} {c : Notch} (h : task.Produces engines t r tasks a c)
    (htask : task.isPolling = true) : tasks.all Task.isPolling = true := by
  cases task with
  | checkpoint e =>
    cases h with
    | strays hno => cases hno
    | passes | polls => rfl
    | _ => contradiction
  | registry e op =>
    cases h with
    | strays => rfl
    | passes hno | polls hno => simp at hno
    | operates hx hstep =>
      cases Registry.section_of_step hstep with
      | comesIn | passes | goesOn => rfl
      | @sleepsOn _ hold => cases hold <;> first | rfl | cases htask
      | misses hop => rcases hop with rfl | rfl <;> cases htask
      | _ => cases htask
    | _ => contradiction
  | _ => cases htask

namespace World

variable {w : World} {t e : Nat} {q : Request} {rest : List Task} {reply : Reply} {x : Runtime}

section Steps

/-- A step that refuses an object: its finalizer is dropped, and engines stay as they are. -/
def Refuses (w : World) (t : Nat) (q : Request) (rest : List Task) (v : Reply) : Prop :=
  (w.move (.step t)).stackOf t = some ⟨.dropFinalizers q.finalizer.toList :: rest, v⟩ ∧
    (w.move (.step t)).engines = w.engines

/-- A step after which a call has no fault that it did not have before. -/
def Unharmed (w : World) (t : Nat) (rest : List Task) (reply : Reply) : Prop :=
  ∃ tasks v, (w.move (.step t)).stackOf t = some ⟨tasks ++ rest, v⟩ ∧ ∀ f, v = .fault f →
    reply = .fault f

/-- A step of a thread is its next task, done by a thread that has taken it off its stack. -/
theorem exists_taken (hs : w.stackOf t = some ⟨task :: rest, reply⟩) : ∃ w₀ : World,
    w₀.stackOf t = some ⟨rest, reply⟩ ∧ w₀.engines = w.engines ∧ ∀ v, w₀.runTask t task = some v →
    (w.move (.step t)).stackOf t = v.stackOf t ∧ (w.move (.step t)).engines = v.engines := by
  refine ⟨_, stackOf_take hs, rfl, fun v hrun => ⟨(move_of_stackOf hs hrun).1, ?_⟩⟩
  rw [move, step_of_stackOf hs hrun]
  rfl

theorem stackOf_refuseAllocation (hs : w.stackOf t = some ⟨rest, reply⟩) (v : Reply) :
    (w.refuseAllocation t q v).stackOf t = some ⟨.dropFinalizers q.finalizer.toList :: rest, v⟩ :=
  stackOf_push (stackOf_answer hs v) _

theorem stackOf_store (hs : w.stackOf t = some ⟨rest, reply⟩) : (w.store t e q n).stackOf t =
      some ⟨rest, .object ((w.engines[e]?).map fun x => x.heap.nextRoot)⟩ :=
  stackOf_answer hs _

/-- What becomes of an object when its thread looks whether it fits. -/
structure Tries (w : World) (t e : Nat) (q : Request) (rest : List Task) (reply : Reply)
    (x : Runtime) : Prop where
  stack : w.stackOf t = some ⟨.attempt e q :: rest, reply⟩
  engine : w.engines[e]? = some x
  /-- At the end of the words the bytes cannot be rounded. -/
  faults : Numeral.wordLimit ≤ bytes q.size q.fields + alignment →
    w.Refuses t q rest (.fault .addOverflow)
  /-- What is larger than the heap is refused. -/
  declines : bytes q.size q.fields + alignment < Numeral.wordLimit →
    x.heap.space.capacity < bytes q.size q.fields →
    w.Refuses t q rest (.failed (.outOfMemory ((bytes q.size q.fields + alignment - 1) /
      alignment * alignment) x.heap.space.available))
  goesOn : bytes q.size q.fields + alignment < Numeral.wordLimit → w.Unharmed t rest reply

theorem tries_of_stackOf (hs : w.stackOf t = some ⟨.attempt e q :: rest, reply⟩)
    (hx : w.engines[e]? = some x) : w.Tries t e q rest reply x := by
  obtain ⟨w₀, htaken, hsame, hmove⟩ := exists_taken hs
  obtain ⟨hstack, hengines⟩ := hmove _ rfl
  rw [← hsame] at hx
  rw [attempt, hx, Footprint.footprint_eq] at hstack hengines
  by_cases hfits : bytes q.size q.fields + alignment < Numeral.wordLimit
  · rw [if_pos hfits] at hstack hengines
    dsimp only at hstack hengines
    by_cases hover : x.heap.space.capacity <
      (bytes q.size q.fields + alignment - 1) / alignment * alignment
    · rw [if_pos hover, exhaustion, hx] at hstack hengines
      rw [stackOf_refuseAllocation htaken] at hstack
      exact ⟨hs, hsame ▸ hx, fun h => absurd hfits (Nat.not_lt.mpr h),
        fun _ _ => ⟨hstack, hengines.trans hsame⟩, fun _ => ⟨[_], _, hstack, by simp⟩⟩
    · rw [if_neg hover] at hstack
      refine ⟨hs, hsame ▸ hx, fun h => absurd hfits (Nat.not_lt.mpr h),
        fun _ hlarge => absurd (hlarge.trans_le (Footprint.le_rounded _)) hover, fun _ => ?_⟩
      split at hstack
      · exact ⟨[], _, hstack.trans (stackOf_store htaken), by simp⟩
      · refine ⟨_, _, hstack.trans (stackOf_push ?_ _), fun _ hf => hf⟩
        exact (stackOf_of_threads (threads_log _)).trans htaken
  · rw [if_neg hfits] at hstack hengines
    exact ⟨hs, hsame ▸ hx, fun _ => ⟨hstack.trans (stackOf_refuseAllocation htaken _),
        hengines.trans hsame⟩, fun h => absurd h hfits, fun h => absurd h hfits⟩

theorem unharmed_of_retry (hs : w.stackOf t = some ⟨.retry e q size final :: rest, reply⟩) :
    w.Unharmed t rest reply := by
  obtain ⟨w₀, htaken, -, hmove⟩ := exists_taken hs
  have hstack := (hmove _ rfl).1
  rw [retry, replyOf_of_stackOf htaken] at hstack
  split at hstack
  · exact ⟨[_], _, hstack.trans (stackOf_refuseAllocation htaken _), by simp⟩
  · split at hstack
    · exact ⟨[], _, hstack.trans (stackOf_store htaken), by simp⟩
    · split at hstack
      · exact ⟨[_], _, hstack.trans (stackOf_refuseAllocation htaken _), by simp⟩
      · exact ⟨_, _, hstack.trans (stackOf_push htaken _), fun _ hf => hf⟩

theorem stackOf_allocate (hs : w.stackOf t = some ⟨.allocate e q :: rest, reply⟩)
    (hx : w.engines[e]? = some x) (hlives : x.state ≠ .stopped) :
    (w.move (.step t)).stackOf t = some ⟨.checkpoint e :: .attempt e q :: rest, reply⟩ ∧
    (w.move (.step t)).engines = w.engines := by
  obtain ⟨w₀, htaken, hsame, hmove⟩ := exists_taken hs
  obtain ⟨hstack, hengines⟩ := hmove _ rfl
  rw [allocate, hsame, hx] at hstack hengines
  dsimp only at hstack hengines
  rw [if_neg hlives] at hstack hengines
  exact ⟨hstack.trans (stackOf_push htaken _), hengines.trans hsame⟩

end Steps

section Runs

/-- Whether a thread has asked for an object and has not looked whether it fits; meanwhile it only
polls. -/
def Asks (w : World) (t e : Nat) (q : Request) (rest : List Task) : Prop :=
  ∃ front reply, front.all Task.isPolling = true ∧
    w.stackOf t = some ⟨front ++ .attempt e q :: rest, reply⟩

/-- **Whoever asks for an object polls until it looks whether it fits,** and leaves what engines
keep as it is. -/
theorem Asks.move (h : w.Asks t e q rest) (m : Move) :
    (∃ reply, w.stackOf t = some ⟨.attempt e q :: rest, reply⟩) ∨
    (w.move m).Asks t e q rest ∧ (m = .step t → (w.move m).imprints = w.imprints) := by
  obtain ⟨front, reply, hfront, hs⟩ := h
  cases front with
  | nil => exact .inl ⟨reply, hs⟩
  | cons task front =>
    rw [List.all_cons, Bool.and_eq_true] at hfront
    have hgentle : task.isGentle = true := by
      cases task with
      | registry k op => cases op <;> first | rfl | cases hfront.1
      | _ => first | rfl | cases hfront.1
    have hkeeps : m = .step t → (w.move m).imprints = w.imprints := by
      rintro rfl
      exact imprints_step hs (.inl hgentle)
    refine .inr ⟨?_, hkeeps⟩
    cases continues_move hs (fun i hi => by subst hi; cases hgentle) m with
    | rests _ hs' => exact ⟨task :: front, reply, by simp [hfront], hs'⟩
    | @steps tasks a _ _ _ hproduces hs' =>
      refine ⟨tasks ++ front, a.getD reply, ?_, by rw [hs', List.append_assoc]; rfl⟩
      rw [List.all_append, hproduces.isPolling hfront.1, hfront.2]
      rfl

/-- **Whoever asks for an object comes to look whether it fits.** -/
theorem Asks.after (h : w.Asks t e q rest) (he : e < w.engines.size) (more : List Move) :
    (w.after more).Asks t e q rest ∧ (∀ past, past ++ [.step t] <+: more →
        (w.after (past ++ [.step t])).imprints = (w.after past).imprints) ∨
      ∃ past y v, past <+: more ∧ (w.after past).Tries t e q rest v y := by
  induction more using List.reverseRecOn with
  | nil => exact .inl ⟨h, fun past hpast => by simp at hpast⟩
  | append_singleton more m ih =>
    have hmore := List.prefix_append more [m]
    rcases ih with ⟨hasks, hkeeps⟩ | ⟨past, y, v, hpast, htries⟩
    · rcases hasks.move m with ⟨v, hs⟩ | ⟨hasks, hkeeps'⟩
      · have hy := Array.getElem?_eq_getElem (he.trans_le (size_engines_le_run w more))
        exact .inr ⟨more, _, v, hmore, tries_of_stackOf hs hy⟩
      · rw [after_append]
        refine .inl ⟨hasks, fun past hpast => ?_⟩
        rcases List.prefix_concat_iff.mp hpast with heq | hold
        · obtain ⟨rfl, rfl⟩ : past = more ∧ .step t = m := by simpa using List.append_inj' heq rfl
          rw [after_append]
          exact hkeeps' rfl
        · exact hkeeps past hold
    · exact .inr ⟨past, y, v, hpast.trans hmore, htries⟩

/-- **An object that is larger than the heap is refused, and engines stay as they are.**  Whoever
asks an engine that was not stopped polls, which leaves what engines keep as it is, and then looks
whether the object fits.  What is larger than the heap is refused there, before any collection; but
the refusal is a fault if the bytes end at the end of the words.  Nothing else in an allocation is a
fault. -/
theorem declines_run (w : World) (more : List Move)
    (hs : w.stackOf t = some ⟨.allocate e q :: rest, reply⟩) (hx : w.engines[e]? = some x)
    (hlives : x.state ≠ .stopped) : (w.move (.step t)).engines = w.engines ∧
    (((w.move (.step t)).after more).Asks t e q rest ∧ (∀ past, past ++ [.step t] <+: more →
      ((w.move (.step t)).after (past ++ [.step t])).imprints =
      ((w.move (.step t)).after past).imprints) ∨
      ∃ past y v, past <+: more ∧ ((w.move (.step t)).after past).Tries t e q rest v y) ∧
    ∀ w' size final more v, World.stackOf w' t = some ⟨.retry e q size final :: more, v⟩ →
    w'.Unharmed t more v := by
  obtain ⟨hstack, hengines⟩ := stackOf_allocate hs hx hlives
  have hasks : (w.move (.step t)).Asks t e q rest := ⟨[.checkpoint e], reply, rfl, hstack⟩
  refine ⟨hengines, hasks.after ?_ more, fun _ _ _ _ _ hretry => unharmed_of_retry hretry⟩
  rw [hengines]
  exact (Array.getElem?_eq_some_iff.mp hx).1

/-- A thread asks for an object of the given size, and takes some steps. -/
def askMoves (size steps : Nat) : List Move :=
  [.call "main"] ++ given 0 0 (.allocate "gc" ⟨size, 0, none⟩ none) steps

/-- Whether a thread is about to ask for an object of the given size. -/
def asksNext (size : Nat) : Option Stack → Bool
  | some ⟨[.allocate 0 ⟨n, 0, none⟩, .conclude 0 (.object none)], .unit⟩ => n == size
  | _ => false

theorem stackOf_asking (h : asksNext size o = true) :
    o = some ⟨[.allocate 0 ⟨size, 0, none⟩, .conclude 0 (.object none)], .unit⟩ := by
  unfold asksNext at h
  split at h
  · rw [eq_of_beq h]
  · cases h

theorem declines_huge : ∃ past y v, past <+: List.replicate 3 (.step 0) ∧
    ((((start standardEngine "gc").after (askMoves 1125899906842624 1)).move (.step 0)).after
      past).Tries 0 0 ⟨1125899906842624, 0, none⟩ [.conclude 0 (.object none)] v y := by
  have hasked : asksNext 1125899906842624
      (((start standardEngine "gc").after (askMoves 1125899906842624 1)).stackOf 0) = true := by
    decide +kernel
  have hs := stackOf_asking hasked
  obtain ⟨x, hx, hlives⟩ : ∃ x,
      ((start standardEngine "gc").after (askMoves 1125899906842624 1)).engines[0]? = some x ∧
      x.state ≠ .stopped := by
    have hany : (((start standardEngine "gc").after (askMoves 1125899906842624 1)).engines[0]?).any
        (·.state ≠ .stopped) = true := by decide +kernel
    obtain ⟨x, hx, hlives⟩ := (Option.any_eq_true _ _).mp hany
    exact ⟨x, hx, of_decide_eq_true hlives⟩
  rcases (declines_run _ (List.replicate 3 (.step 0)) hs hx hlives).2.1 with
    ⟨⟨front, reply, -, hasks⟩, -⟩ | htries
  · -- by then the call is over
    have hlength := congrArg (Option.map fun s => s.tasks.length) hasks
    have hover :
        (((((start standardEngine "gc").after (askMoves 1125899906842624 1)).move (.step 0)).after
          (List.replicate 3 (.step 0))).stackOf 0).map (fun s => s.tasks.length) = some 1 := by
      decide +kernel
    rw [hover] at hlength
    simp at hlength
  · exact htries

theorem faults_at_end : asksNext 18446744073709551615
    (((start standardEngine "gc").after (askMoves 18446744073709551615 1)).stackOf 0) = true ∧
    ((start standardEngine "gc").after (askMoves 18446744073709551615 4)).replyOf 0 =
      .fault .addOverflow := by
  decide +kernel

end Runs

end World

end ManagedHeap
