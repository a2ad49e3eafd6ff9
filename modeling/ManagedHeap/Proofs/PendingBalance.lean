import ManagedHeap.Proofs.PendingSteps

/-!
# Pending jobs are in balance

**Input.**  A run, and what is on the slate of an engine along it.

**Algorithm.**  A step moves the charge of its thread one place on.  It keeps what is on the slate
in balance: jobs that come from somewhere go somewhere, and the counter follows them.  Instructions
make engines and hire threads, with empty slates.

**Results.**  `World.slate_sound_after`: slates are in balance along every run.
-/

namespace ManagedHeap

section Sums

variable {α M : Type} [AddCommMonoid M]

theorem sum_map_modify {l : List α} {i : Nat} (hi : i < l.length) {f : α → α} {g : α → M} {m : M}
    (h : ∀ x, g (f x) = m + g x) : ((l.modify i f).map g).sum = m + (l.map g).sum := by
  induction l generalizing i with
  | nil => cases hi
  | cons x rest ih =>
    cases i with
    | zero => simp [h, add_assoc]
    | succ i => simp [ih (Nat.lt_of_succ_lt_succ hi), add_left_comm]

end Sums

namespace Slate

variable {s s' : Slate} {t : Nat} {c : Option Charge} {cs : List Charge} {ps ps' : List Posting}

def sum {M : Type} [AddCommMonoid M] (f : Charge → M) (s : Slate) : M :=
  (s.charges.toList.map fun l => (l.map f).sum).sum

theorem sum_push {M : Type} [AddCommMonoid M] (ht : t < s.charges.size) (f : Charge → M) :
    (s.push t cs).sum f = (cs.map f).sum + s.sum f := by
  unfold sum push
  rw [Array.toList_modify]
  exact sum_map_modify (by simpa using ht) fun l => by simp

def held (s : Slate) (t : Nat) : List Charge := s.charges[t]?.getD []

theorem held_push_self (ht : t < s.charges.size) : (s.push t cs).held t = cs ++ s.held t := by
  unfold held push
  rw [Array.getElem?_modify, if_pos rfl, Array.getElem?_eq_getElem ht]
  rfl

theorem held_push_of_ne {u : Nat} (hu : t ≠ u) : (s.push t cs).held u = s.held u := by
  simp [held, push, Array.getElem?_modify, hu]

theorem exists_held {l : List Charge} (hl : l ∈ s.charges) : ∃ t, s.held t = l := by
  obtain ⟨t, ht⟩ := Array.getElem?_of_mem hl
  exact ⟨t, by rw [held, ht]; rfl⟩

/-- What holds of the jobs of an engine along a run, with all that was posted about them. -/
structure Sound (s : Slate) (ps : List Posting) : Prop where
  fates : Posting.jobsOf .scheduled ps =
    s.sum Charge.arriving + s.sum Charge.carried + ↑(Account.sentOf s.account) + Posting.settled ps
  counter : Account.pendingOf s.account =
    s.sum Charge.weight + (Account.sentOf s.account).length + (Posting.jobsOf .lost ps).card
  orderly : ∀ t, Charge.Orderly (s.held t)
  /-- Nobody has a charge for an engine that is not there. -/
  grounded : s.account = none → ∀ t, s.held t = []

theorem sound_empty : Sound ⟨none, #[]⟩ [] where
  fates := by simp [sum, Account.sentOf, Posting.settled]
  counter := by simp [sum, Account.sentOf, Account.pendingOf]
  orderly t := by simp [held]
  grounded _ t := by simp [held]

theorem Shift.sound {a : Option Account} (ht : t < s.charges.size)
    (hshift : Shift s.account c ps' a cs) (hs : (s.push t c.toList).Sound ps) :
    ({ s with account := a }.push t cs).Sound (ps ++ ps') := by
  have ht' : t < ({ s with account := a } : Slate).charges.size := ht
  have hfates := hs.fates
  have hcounter := hs.counter
  rw [sum_push ht, sum_push ht] at hfates
  rw [sum_push ht] at hcounter
  simp only [push] at hcounter
  constructor
  case fates =>
    rw [sum_push ht', sum_push ht', Posting.jobsOf_append, Posting.settled_append, hfates]
    calc
      _ = Posting.jobsOf .scheduled ps' + ((c.toList.map Charge.arriving).sum +
          (c.toList.map Charge.carried).sum + ↑(Account.sentOf s.account)) +
          (s.sum Charge.arriving + s.sum Charge.carried + Posting.settled ps) := by
        simp only [push]
        abel
      _ = _ := by
        rw [hshift.jobs]
        simp only [push, sum]
        abel
  case counter =>
    have hcount := hshift.counter (by omega)
    rw [sum_push ht', Posting.jobsOf_append, Multiset.card_add]
    simp only [push, sum] at hcounter ⊢
    omega
  case orderly =>
    intro u
    have horderly := hs.orderly u
    by_cases hu : t = u
    · subst hu
      rw [held_push_self ht] at horderly
      rw [held_push_self ht']
      exact hshift.orderly _ horderly
    · rw [held_push_of_ne hu] at horderly ⊢
      exact horderly
  case grounded =>
    intro hnone u
    obtain ⟨hbefore, hnothing⟩ := hshift.grounded hnone
    have hheld := hs.grounded hbefore u
    by_cases hu : t = u
    · subst hu
      rw [held_push_self ht, List.append_eq_nil_iff, Option.toList_eq_nil_iff] at hheld
      rw [held_push_self ht', hnothing hheld.1]
      exact hheld.2
    · rw [held_push_of_ne hu] at hheld ⊢
      exact hheld

/-- An engine is made, or a thread comes, perhaps to serve an engine. -/
inductive Opens : Slate → Slate → Prop
  | account {s : Slate} (h : s.account = none) : Opens s { s with account := some ⟨0, []⟩ }
  | thread {s : Slate} {cs : List Charge} (h : cs = [] ∨ (cs = [.serve] ∧ s.account ≠ none)) :
      Opens s { s with charges := s.charges.push cs }

def Grows : Slate → Slate → Prop := Relation.ReflTransGen Opens

theorem Opens.sound (h : s.Opens s') (hs : s.Sound ps) : s'.Sound ps := by
  cases h with
  | account hnone =>
    refine ⟨?_, ?_, hs.orderly, nofun⟩
    · simpa [hnone, Account.sentOf, sum] using hs.fates
    · simpa [hnone, Account.sentOf, Account.pendingOf, sum] using hs.counter
  | @thread cs hcs =>
    have hheld : ∀ u, held { s with charges := s.charges.push cs } u = s.held u ∨
        held { s with charges := s.charges.push cs } u = cs := by
      intro u
      unfold held
      rw [Array.getElem?_push]
      split
      · exact .inr rfl
      · exact .inl rfl
    have hsum : ∀ {M : Type} [AddCommMonoid M] {f : Charge → M}, (cs.map f).sum = 0 →
        sum f { s with charges := s.charges.push cs } = s.sum f := by
      intro M _ f hf
      simp [sum, hf]
    have hnothing : (cs.map Charge.arriving).sum = 0 ∧ (cs.map Charge.carried).sum = 0 ∧
        (cs.map Charge.weight).sum = 0 ∧ Charge.Orderly cs := by
      rcases hcs with rfl | ⟨rfl, -⟩ <;> simp
    refine ⟨?_, ?_, fun u => ?_, fun hnone u => ?_⟩
    · rw [hsum hnothing.1, hsum hnothing.2.1]
      exact hs.fates
    · rw [hsum hnothing.2.2.1]
      exact hs.counter
    · rcases hheld u with hu | hu
      · rw [hu]
        exact hs.orderly u
      · rw [hu]
        exact hnothing.2.2.2
    · rcases hheld u with hu | hu
      · rw [hu]
        exact hs.grounded hnone u
      · rcases hcs with rfl | ⟨-, hthere⟩
        · exact hu
        · exact (hthere hnone).elim

theorem Grows.sound (h : s.Grows s') (hs : s.Sound ps) : s'.Sound ps := by
  induction h with
  | refl => exact hs
  | tail _ opens ih => exact opens.sound ih

/-- What a move does to a slate, given the charges that threads would take off their stacks. -/
inductive Turn (next : Nat → Option Charge) : Move → Slate → List Posting → Slate → Prop
  | grows {m : Move} {s s' : Slate} (h : s.Grows s') : Turn next m s [] s'
  | steps {t : Nat} {s : Slate} {a : Option Account} {ps : List Posting}
      {cs : List Charge} (ht : t < s.charges.size) (h : Shift s.account (next t) ps a cs) :
      Turn next (.step t) (s.push t (next t).toList) ps ({ s with account := a }.push t cs)

theorem Turn.sound {next : Nat → Option Charge} {m : Move} (h : Turn next m s ps' s')
    (hs : s.Sound ps) : s'.Sound (ps ++ ps') := by
  cases h with
  | grows hgrows =>
    rw [List.append_nil]
    exact hgrows.sound hs
  | steps ht hshift => exact hshift.sound ht hs

end Slate

namespace Floor

variable {f f' : Floor} {t e : Nat} {s : Stack}

/-- The jobs of an engine, as everybody sees them. -/
def slate (e : Nat) (f : Floor) : Slate where
  account := (f.boards[e]?).map Board.account
  charges := f.threads.map fun s => s.tasks.filterMap (Task.charge? e)

theorem slate_alter (c : Notch) : (f.alter c).slate e =
      { f.slate e with account := (f.boards[e]?).map fun b => (c.on e b).account } := by
  unfold slate
  rw [threads_alter, boards_alter, Option.map_map]
  rfl

theorem slate_modifyBoard {k : Nat} {g : Board → Board} (h : ∀ b, (g b).account = b.account) :
    (f.modifyBoard k g).slate e = f.slate e := by
  unfold slate modifyBoard
  congr 1
  rw [Array.getElem?_modify]
  split
  · cases f.boards[e]? <;> simp [h]
  · rfl

theorem put_put (s s' : Stack) : (f.put t s).put t s' = f.put t s' := by
  unfold put
  dsimp only
  rw [modify_modify]

theorem slate_put (hs : f.threads[t]? = some s) (tasks : List Task) (r : Reply) :
    (f.put t ⟨tasks ++ s.tasks, r⟩).slate e =
      (f.slate e).push t (tasks.filterMap (Task.charge? e)) := by
  unfold slate put Slate.push
  dsimp only
  congr 1
  apply Array.ext_getElem?
  intro j
  simp only [Array.getElem?_map, Array.getElem?_modify]
  split
  · next hj =>
      subst hj
      simp [hs]
  · rfl

/-- A new engine has an empty slate, and a thread that is hired serves one of them. -/
theorem Opens.slate (h : f.Opens R f') (e : Nat) : (f.slate e).Grows (f'.slate e) := by
  have hsame : f'.slate e = f.slate e → (f.slate e).Grows (f'.slate e) := fun hsame => hsame ▸ .refl
  cases h with
  | registers | resigns | resets => exact hsame (slate_modifyBoard fun _ => rfl)
  | drops => exact hsame rfl
  | makes runs =>
    by_cases he : e = f.boards.size
    · have hmade : Floor.slate e { f with boards := f.boards.push (.fresh runs) } =
          { f.slate e with account := some ⟨0, []⟩ } := by
        simp [Floor.slate, he, Board.fresh, Board.account]
      rw [hmade]
      exact .single (.account (by simp [Floor.slate, he]))
    · exact hsame (by simp [Floor.slate, Array.getElem?_push, he])
  | @hires e' b hb =>
    have hkept : (f.modifyBoard e' .hire).slate e = f.slate e := slate_modifyBoard fun _ => rfl
    have hhired : Floor.slate e { f.modifyBoard e' .hire with
        threads := f.threads.push ⟨[.serve e'], .unit⟩ } = { f.slate e with
        charges := (f.slate e).charges.push ([Task.serve e'].filterMap (Task.charge? e)) } := by
      rw [← hkept]
      simp [Floor.slate, Floor.modifyBoard]
    rw [hhired]
    refine .single (.thread ?_)
    by_cases he : e' = e
    · exact .inr ⟨by simp [he], by simp [Floor.slate, ← he, hb]⟩
    · exact .inl (by simp [he])

theorem Grows.slate (h : f.Grows R f') (e : Nat) : (f.slate e).Grows (f'.slate e) := by
  induction h with
  | refl => exact .refl
  | tail _ opens ih => exact ih.trans (opens.slate e)

end Floor

theorem Opening.charges {engines : Array Runtime} {agents : Table AgentHandle} {tasks : List Task}
    (h : Opening engines agents tasks) (e : Nat) : tasks.filterMap (Task.charge? e) = [] :=
  List.filterMap_eq_nil_iff.mpr fun x hx => World.Task.charge?_of_load (by simp [h.load_eq_none hx])

namespace World

variable {w w₁ w' : World} {t e e' : Nat}

theorem slate_floor : w.floor.slate e = w.slate e := by
  unfold Floor.slate slate floor
  congr 1
  · rw [Array.getElem?_map, Option.map_map]
    rfl
  · rw [Array.map_map]
    rfl

/-- The charge of the task that a thread would take off its stack. -/
def nextCharge (w : World) (e t : Nat) : Option Charge := (w.nextTask t).bind (Task.charge? e)

theorem postings_of_stackOf {task : Task} {rest : List Task} {r : Reply}
    (hstep : (w.step t).isSome = true) (hs : w.stackOf t = some ⟨task :: rest, r⟩) :
    w.postings e (.step t) = w.postingsOf e task := by
  rw [postings, if_pos hstep, nextTask_of_stackOf hs, Option.elim_some]

theorem slate_turn_move (hreg : w.core.Regular)
    (hgrounded : (w.slate e).account = none → ∀ t, (w.slate e).held t = []) (m : Move) :
    Slate.Turn (w.nextCharge e) m (w.slate e) (w.postings e m) ((w.move m).slate e) := by
  -- the slate while the thread has its task in its hands
  have htake : ∀ {t task rest r}, w.stackOf t = some ⟨task :: rest, r⟩ →
      (w.floor.put t ⟨rest, r⟩).threads[t]? = some ⟨rest, r⟩ ∧
        w.slate e = ((w.floor.put t ⟨rest, r⟩).slate e).push t (task.charge? e).toList := by
    intro t task rest r hs
    have hput := Floor.getElem?_put_self ((threads_floor t).trans hs) ⟨rest, r⟩
    refine ⟨hput, ?_⟩
    have hback : w.floor.put t ⟨[task] ++ rest, r⟩ = w.floor := by
      unfold Floor.put
      rw [modify_eq_self]
      intro x hx
      exact (Option.some.inj (hx.symm.trans ((threads_floor t).trans hs))).symm
    have hgiven := Floor.slate_put (e := e) hput [task] r
    rw [Floor.put_put, hback, slate_floor] at hgiven
    rw [hgiven]
    cases hc : task.charge? e with
    | none => rw [List.filterMap_cons_none hc]; rfl
    | some c => rw [List.filterMap_cons_some hc]; rfl
  rw [← slate_floor (w := w.move m)]
  have hmove := rearranges_move w m
  generalize (w.move m).floor = f at hmove ⊢
  cases hmove with
  | rests hrests =>
    have hnothing : w.postings e m = [] := by
      cases m with
      | step t => simp [postings, hrests t rfl]
      | _ => rfl
    rw [hnothing, slate_floor]
    exact .grows .refl
  | comes =>
    have hcome : Floor.slate e { w.floor with threads := w.floor.threads.push ⟨[], .unit⟩ } =
        { w.slate e with charges := (w.slate e).charges.push [] } := by
      rw [← slate_floor]
      simp [Floor.slate]
    rw [hcome]
    exact .grows (.single (.thread (.inl rfl)))
  | @instructs t number timed i r hs =>
    have hgiven := Floor.slate_put (e := e) ((threads_floor t).trans hs) [.perform i] r
    have hsame : (w.floor.put t ⟨[.perform i], r⟩).slate e = w.slate e := by
      rw [← slate_floor]
      exact hgiven.trans Slate.push_nil
    rw [hsame]
    exact .grows .refl
  | @steps t task rest tasks r a c hstep hs h =>
    obtain ⟨hput, hslate⟩ := htake hs
    have hsize : t < ((w.floor.put t ⟨rest, r⟩).slate e).charges.size := by
      simpa [Floor.slate] using (Array.getElem?_eq_some_iff.mp hput).1
    have hcharge : w.nextCharge e t = task.charge? e := by
      rw [nextCharge, nextTask_of_stackOf hs, Option.bind_some]
    have hthere : task.charge? e ≠ none → ∃ x, w.engines[e]? = some x := by
      intro hcharged
      by_contra hnone
      have hmissing : w.engines[e]? = none :=
        Option.eq_none_iff_forall_ne_some.mpr fun y hy => hnone ⟨y, hy⟩
      have hheld := hgrounded (by rw [slate, hmissing, Option.map_none]) t
      rw [hslate, Slate.held_push_self hsize, List.append_eq_nil_iff,
        Option.toList_eq_nil_iff] at hheld
      exact hcharged hheld.1
    have haccount :
        ((w.floor.put t ⟨rest, r⟩).slate e).account = (w.engines[e]?).map Engine.account := by
      rw [Floor.slate, Floor.boards_put, boards_floor, Option.map_map]
      rfl
    have hposts := posts_of_produces hthere
      (hreg.fits t ⟨task :: rest, r⟩ (by simpa [core, stackOf] using hs) task List.mem_cons_self) h
    have hgiven := Floor.slate_put (e := e) hput tasks (a.getD r)
    rw [Floor.put_put] at hgiven
    rw [postings_of_stackOf hstep hs, hslate, ← hcharge, Floor.slate_alter, hgiven,
      Floor.boards_put, boards_floor, Option.map_map]
    refine .steps hsize ?_
    rw [haccount, hcharge]
    exact hposts
  | @performs t i rest tasks r a f hstep hs h hf =>
    obtain ⟨hput, hslate⟩ := htake hs
    rw [postings_of_stackOf hstep hs, hslate, Floor.slate_put (hf.threads_of_some hput), h.charges]
    exact .grows (by simpa using hf.slate e)

theorem grown_start (s : EngineSpec) (label : String) :
    (({} : World).slate e).Grows ((start s label).slate e) := by
  rw [← slate_floor, ← slate_floor]
  exact (floor_start s label).slate e

theorem slate_sound_after (s : EngineSpec) (label : String) (e : Nat) (moves : List Move) :
    (((start s label).after moves).slate e).Sound ((start s label).posted e moves) := by
  induction moves using List.reverseRecOn with
  | nil =>
    have hempty : ({} : World).slate e = ⟨none, #[]⟩ := by simp [slate]
    exact (grown_start s label).sound (hempty ▸ Slate.sound_empty)
  | append_singleton moves m ih =>
    have hturn := slate_turn_move (regular_after s label moves) ih.grounded m
    rw [after_append, posted_append]
    have hposted : ((start s label).after moves).posted e [m] =
        ((start s label).after moves).postings e m := by
      rw [posted, posted, List.append_nil]
    rw [hposted]
    exact hturn.sound ih

end World

end ManagedHeap
