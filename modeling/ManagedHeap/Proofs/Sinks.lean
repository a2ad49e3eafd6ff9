import ManagedHeap.Journal.Basic
import Mathlib.Data.List.TakeWhile

/-!
# The sinks of a journal

**Input.**  A configuration, a disk, and calls on the journal between which the disk may begin or
cease to take lines.

**Algorithm.**  An event is accepted by what was called before it, whatever the sinks do with it.
The history holds the last accepted events since the last clear, the console all of them, the file
those before the first failing write.

**Results.**  `Journal.sinksAgree_after`: what the three sinks hold after any calls.
-/

namespace ManagedHeap

namespace Journal

/-- An event and when it is logged. -/
structure Entry where
  stamp : Stamp
  event : Event

/-- A call on a journal, or a change of what its disk does with the writes to come. -/
inductive Use where
  | log (x : Entry)
  | enable
  | disable
  | clear
  | turn (writes : Bool)

namespace Use

/-- Whether this is a call, which the journal sees at once. -/
def isCall : Use → Bool
  | .turn _ => false
  | _ => true

def on (before : Bool) : Use → Bool
  | .enable => true
  | .disable => false
  | _ => before

def ok (before : Bool) : Use → Bool
  | .turn writes => writes
  | _ => before

/-- The event that is accepted, with whether a write succeeds at that time. -/
def trial (limit : Level) (on ok : Bool) : Use → List (Entry × Bool)
  | .log x => if on = true ∧ x.event.level.rank ≤ limit.rank then [(x, ok)] else []
  | _ => []

end Use

/-- The accepted events, each with whether a write succeeds at that time. -/
def trials (limit : Level) : Bool → Bool → List Use → List (Entry × Bool)
  | _, _, [] => []
  | on, ok, u :: uses => u.trial limit on ok ++ trials limit (u.on on) (u.ok ok) uses

/-- The events logged while the journal is on whose level does not exceed the limit. -/
def accepted (limit : Level) (uses : List Use) : List Entry :=
  (trials limit true true uses).map Prod.fst

def use (j : Journal) : Use → Journal × List String
  | .log x => ((j.logAt x.stamp x.event).1, (j.logAt x.stamp x.event).2.printed)
  | .enable => (j.enable, [])
  | .disable => (j.disable, [])
  | .clear => (j.clear, [])
  | .turn writes => ({ j with disk := { j.disk with writes := writes } }, [])

def run (j : Journal) : List Use → Journal × List String
  | [] => (j, [])
  | u :: uses => (((j.use u).1.run uses).1, (j.use u).2 ++ ((j.use u).1.run uses).2)

/-- A new journal after some calls, and what they printed. -/
def after (config : JournalConfig) (disk : Disk) (uses : List Use) : Journal × List String :=
  (start config disk).1.run uses

/-- The last entries, at most as many as the bound; zero for no bound. -/
def lastOf (bound : Nat) (events : List Event) : List Event :=
  if bound = 0 then events else events.drop (events.length - bound)

def lineOf (j : Journal) (x : Entry) : String := j.line x.stamp x.event

def lines (j : Journal) (xs : List Entry) : String :=
  String.join (xs.map fun x => j.lineOf x ++ "\n")

/-- The accepted events that reach the file: those before the first failing write. -/
def written (config : JournalConfig) (disk : Disk) (uses : List Use) : List Entry :=
  if config.file.isSome && disk.opens then
    ((trials config.level true disk.writes uses).takeWhile Prod.snd).map Prod.fst
  else []

section Step

variable (j : Journal) {e : Event} {s : Stamp}

/-- What one call changes, by the event that it brings. -/
structure Goes (u : Use) (j' : Journal) (printed : List String) : Prop where
  config : j'.config = j.config
  on : j'.enabled = u.on j.enabled
  ok : j'.disk.writes = u.ok j.disk.writes
  console : printed =
      if j.config.console then (u.trial j.config.level j.enabled j.disk.writes).map (j.lineOf ·.1)
    else []
  fileOpen :
    j'.fileOpen = (j.fileOpen && (u.trial j.config.level j.enabled j.disk.writes).all Prod.snd)
  content : j'.disk.content = if j.fileOpen then
    j.disk.content ++
      j.lines (((u.trial j.config.level j.enabled j.disk.writes).takeWhile Prod.snd).map Prod.fst)
    else j.disk.content
  clear : u = .clear → j'.events = []
  events : u ≠ .clear → (j.config.history = 0 ∨ j.events.length ≤ j.config.history) →
    j'.events = lastOf j.config.history
      (j.events ++ ((u.trial j.config.level j.enabled j.disk.writes).map Prod.fst).map Entry.event)

variable {j}

theorem lastOf_of_le {bound : Nat} {events : List Event} (h : bound = 0 ∨ events.length ≤ bound) :
    lastOf bound events = events := by
  unfold lastOf
  split
  · rfl
  · next hb => rw [Nat.sub_eq_zero_of_le (h.resolve_left hb), List.drop_zero]

theorem length_lastOf (bound : Nat) (events : List Event) :
    bound = 0 ∨ (lastOf bound events).length ≤ bound := by
  unfold lastOf
  split
  · next hb => exact .inl hb
  · exact .inr (by rw [List.length_drop]; omega)

theorem lastOf_append (bound : Nat) (older newer : List Event) :
    lastOf bound (lastOf bound older ++ newer) = lastOf bound (older ++ newer) := by
  unfold lastOf
  split
  · rfl
  · rw [← List.drop_append_of_le_length (by omega), List.drop_drop, List.length_drop,
      List.length_append]
    congr 1
    omega

theorem events_keep (h : j.config.history = 0 ∨ j.events.length ≤ j.config.history) :
    (j.keep e).events = lastOf j.config.history (j.events ++ [e]) := by
  unfold keep lastOf
  dsimp only
  split
  · next hfull =>
    rw [if_neg (by omega), List.length_append, List.length_singleton,
      ← List.drop_append_of_le_length (by omega)]
    congr 1
    omega
  · split
    · rfl
    · rw [List.length_append, List.length_singleton, Nat.sub_eq_zero_of_le (by omega),
        List.drop_zero]

theorem logAt_of_declined (h : ¬(j.enabled = true ∧ e.level.rank ≤ j.config.level.rank)) :
    (j.logAt s e).1 = j ∧ (j.logAt s e).2.printed = [] := by
  unfold logAt
  cases hon : j.enabled with
  | false => exact ⟨rfl, rfl⟩
  | true =>
    have hp : e.level.passes j.config.level = false := decide_eq_false fun hle => h ⟨hon, hle⟩
    simp [hp]

theorem logAt_of_accepted (h : j.enabled = true ∧ e.level.rank ≤ j.config.level.rank) :
    (j.logAt s e).1 = (j.write (j.line s e)).1.keep e ∧
      (j.logAt s e).2.printed = if j.config.console then [j.line s e] else [] := by
  have hp : e.level.passes j.config.level = true := decide_eq_true h.2
  simp [logAt, h.1, hp]

@[simp] theorem lines_nil : j.lines [] = "" := rfl

theorem lines_append (older newer : List Entry) :
    j.lines (older ++ newer) = j.lines older ++ j.lines newer := by
  simp [lines]

/-- **What a call does is what its event asks for.** -/
theorem goes_use (u : Use) : j.Goes u (j.use u).1 (j.use u).2 := by
  cases u with
  | log x =>
    by_cases h : j.enabled = true ∧ x.event.level.rank ≤ j.config.level.rank
    · obtain ⟨hlog, hprinted⟩ := logAt_of_accepted (s := x.stamp) h
      have htrial : Use.trial j.config.level j.enabled j.disk.writes (.log x) =
          [(x, j.disk.writes)] := if_pos h
      have hline : j.lines [x] = j.line x.stamp x.event ++ "\n" := by
        simp [lines, lineOf, String.join]
      refine ⟨?_, ?_, ?_, ?_, ?_, ?_, nofun, fun _ hb => ?_⟩
      all_goals simp only [use, hlog, hprinted, htrial]
      · unfold write; (repeat' split) <;> rfl
      · unfold write; (repeat' split) <;> rfl
      · unfold write; (repeat' split) <;> rfl
      · rfl
      · unfold write
        cases hf : j.fileOpen <;> cases hw : j.disk.writes <;> simp [keep, hf]
      · unfold write
        cases hf : j.fileOpen <;> cases hw : j.disk.writes <;>
          simp [keep, hw, hline, String.append_assoc]
      · rw [events_keep]
        · unfold write; (repeat' split) <;> rfl
        · unfold write; (repeat' split) <;> exact hb
    · obtain ⟨hlog, hprinted⟩ := logAt_of_declined (s := x.stamp) h
      have htrial : Use.trial j.config.level j.enabled j.disk.writes (.log x) = [] := if_neg h
      refine ⟨?_, ?_, ?_, ?_, ?_, ?_, nofun, fun _ hb => ?_⟩
      all_goals simp only [use, hlog, hprinted, htrial]
      all_goals simp [Use.on, Use.ok, lastOf_of_le, *]
  | enable | disable | clear | turn =>
    refine ⟨rfl, rfl, rfl, ?_, ?_, ?_, ?_, fun _ hb => ?_⟩
    all_goals simp [use, enable, disable, clear, Use.trial, lastOf_of_le, *] at *

end Step

section Run

variable {j j' : Journal}

theorem lineOf_of_config (h : j'.config = j.config) : j'.lineOf = j.lineOf := by
  funext x
  unfold lineOf line
  rw [h]

theorem config_run (uses : List Use) : (j.run uses).1.config = j.config := by
  induction uses generalizing j with
  | nil => rfl
  | cons u uses ih => exact ih.trans (goes_use u).config

theorem run_append (older newer : List Use) :
    (j.run (older ++ newer)).1 = ((j.run older).1.run newer).1 := by
  induction older generalizing j with
  | nil => rfl
  | cons u older ih => exact ih

theorem trials_append (limit : Level) (on ok : Bool) (older newer : List Use) :
    trials limit on ok (older ++ newer) = trials limit on ok older ++
      trials limit (older.foldl Use.on on) (older.foldl Use.ok ok) newer := by
  induction older generalizing on ok with
  | nil => rfl
  | cons u older ih => rw [List.cons_append, trials, trials, ih, List.append_assoc]; rfl

theorem map_fst_trial (limit : Level) (on ok ok' : Bool) (u : Use) :
    (u.trial limit on ok).map Prod.fst = (u.trial limit on ok').map Prod.fst := by
  cases u <;> simp only [Use.trial]
  split <;> rfl

theorem map_fst_trials (limit : Level) (on ok ok' : Bool) (uses : List Use) :
    (trials limit on ok uses).map Prod.fst = (trials limit on ok' uses).map Prod.fst := by
  induction uses generalizing on ok ok' with
  | nil => rfl
  | cons u uses ih =>
    rw [trials, trials, List.map_append, List.map_append, map_fst_trial _ _ _ ok',
      ih _ (u.ok ok) (u.ok ok')]

theorem enabled_run (uses : List Use) : (j.run uses).1.enabled = uses.foldl Use.on j.enabled := by
  induction uses generalizing j with
  | nil => rfl
  | cons u uses ih => rw [run, ih, (goes_use u).on]; rfl

theorem printed_run (uses : List Use) : (j.run uses).2 =
    if j.config.console then (trials j.config.level j.enabled j.disk.writes uses).map (j.lineOf ·.1)
      else [] := by
  induction uses generalizing j with
  | nil => simp [run, trials]
  | cons u uses ih =>
    have hu := goes_use (j := j) u
    rw [run, trials, ih, hu.config, hu.on, hu.ok, lineOf_of_config hu.config, hu.console]
    split <;> simp

theorem content_run (uses : List Use) : (j.run uses).1.disk.content = if j.fileOpen then
    j.disk.content ++ j.lines
      (((trials j.config.level j.enabled j.disk.writes uses).takeWhile Prod.snd).map Prod.fst)
    else j.disk.content := by
  induction uses generalizing j with
  | nil => simp [run, trials]
  | cons u uses ih =>
    have hu := goes_use (j := j) u
    have hlines : (j.use u).1.lines = j.lines := by
      funext events
      rw [lines, lineOf_of_config hu.config]
      rfl
    rw [run, trials, ih, hu.config, hu.on, hu.ok, hu.fileOpen, hu.content, hlines]
    cases hf : j.fileOpen with
    | false => rfl
    | true =>
      rw [List.takeWhile_append]
      cases hall : (u.trial j.config.level j.enabled j.disk.writes).all Prod.snd with
      | false =>
        have hlt : ¬((u.trial j.config.level j.enabled j.disk.writes).takeWhile Prod.snd).length =
            (u.trial j.config.level j.enabled j.disk.writes).length := fun h => by
          rw [← (List.takeWhile_prefix _).eq_of_length h, List.all_takeWhile] at hall
          cases hall
        rw [if_neg hlt]
        rfl
      | true =>
        have heq := List.takeWhile_eq_self_iff.mpr (List.all_eq_true.mp hall)
        rw [if_pos (congrArg List.length heq), heq, List.map_append, lines_append,
          ← String.append_assoc]
        rfl

theorem content_after (config : JournalConfig) (disk : Disk) (uses : List Use) :
    (after config disk uses).1.disk.content =
      disk.content ++ (start config disk).1.lines (written config disk uses) := by
  rw [after, content_run, written]
  show (if config.file.isSome && disk.opens then _ else _) = _
  split
  · rfl
  · rw [lines_nil, String.append_empty]
    rfl

theorem events_run {uses : List Use} (hc : Use.clear ∉ uses)
    (hb : j.config.history = 0 ∨ j.events.length ≤ j.config.history) :
    (j.run uses).1.events = lastOf j.config.history (j.events ++
      ((trials j.config.level j.enabled j.disk.writes uses).map Prod.fst).map Entry.event) := by
  induction uses generalizing j with
  | nil => simp [run, trials, lastOf_of_le hb]
  | cons u uses ih =>
    have hu := goes_use (j := j) u
    have hevents := hu.events (fun h => hc (h ▸ List.mem_cons_self)) hb
    rw [run, trials, ih (fun h => hc (List.mem_cons_of_mem _ h)), hu.config, hu.on, hu.ok, hevents,
      lastOf_append, List.map_append, List.map_append, List.append_assoc]
    rw [hu.config, hevents]
    exact length_lastOf ..

theorem bounded_use (u : Use) (hb : j.config.history = 0 ∨ j.events.length ≤ j.config.history) :
    (j.use u).1.config.history = 0 ∨ (j.use u).1.events.length ≤ (j.use u).1.config.history := by
  have hu := goes_use (j := j) u
  rw [hu.config]
  by_cases hc : u = .clear
  · rw [hu.clear hc]
    exact .inr (Nat.zero_le _)
  · rw [hu.events hc hb]
    exact length_lastOf ..

theorem run_filter (uses : List Use) (hc : j.config = j'.config) (hon : j.enabled = j'.enabled)
    (he : j.events = j'.events) (hb : j.config.history = 0 ∨ j.events.length ≤ j.config.history) :
    (j.run uses).1.events = (j'.run (uses.filter Use.isCall)).1.events ∧
      (j.run uses).2 = (j'.run (uses.filter Use.isCall)).2 := by
  induction uses generalizing j j' with
  | nil => exact ⟨he, rfl⟩
  | cons u uses ih =>
    have hu := goes_use (j := j) u
    have hu' := goes_use (j := j') u
    have htrial := map_fst_trial j.config.level j.enabled j.disk.writes j'.disk.writes u
    cases hcall : u.isCall with
    | false =>
      obtain ⟨writes, rfl⟩ : ∃ writes, u = .turn writes := by
        cases u <;> simp [Use.isCall] at hcall
        exact ⟨_, rfl⟩
      exact ih hc hon he hb
    | true =>
      rw [List.filter_cons_of_pos hcall, run, run]
      have hevents : (j.use u).1.events = (j'.use u).1.events := by
        by_cases hclear : u = .clear
        · rw [hu.clear hclear, hu'.clear hclear]
        · rw [hu.events hclear hb, hu'.events hclear (hc ▸ he ▸ hb), htrial, hc, hon, he]
      have hprinted : (j.use u).2 = (j'.use u).2 := by
        have hlines := congrArg (List.map j.lineOf) htrial
        rw [List.map_map, List.map_map] at hlines
        rw [hu.console, hu'.console, ← lineOf_of_config hc, ← hc, ← hon]
        split
        · exact hlines
        · rfl
      obtain ⟨hlater, hlaterPrinted⟩ :=
        ih (by rw [hu.config, hu'.config, hc]) (by rw [hu.on, hu'.on, hon]) hevents
          (bounded_use u hb)
      exact ⟨hlater, by rw [hprinted, hlaterPrinted]⟩

/-- What the sinks of a journal hold after some calls. -/
structure SinksAgree (config : JournalConfig) (disk : Disk) (uses : List Use) : Prop where
  /-- The history is the last accepted events since the last clear. -/
  history : ∀ before recent, uses = before ++ recent → Use.clear ∉ recent →
    (before = [] ∨ ∃ earlier, before = earlier ++ [.clear]) →
    (after config disk uses).1.events = lastOf config.history
    (((accepted config.level uses).drop (accepted config.level before).length).map Entry.event)
  console : (after config disk uses).2 =
    if config.console then (accepted config.level uses).map (start config disk).1.lineOf else []
  /-- The file has what it had, and the lines of the events before the first failing write. -/
  file : (after config disk uses).1.disk.content =
    disk.content ++ (start config disk).1.lines (written config disk uses)
  /-- Another disk makes no difference to the history and to the console. -/
  unaffected : ∀ disk' uses', uses'.filter Use.isCall = uses.filter Use.isCall →
    (after config disk' uses').1.events = (after config disk uses).1.events ∧
      (after config disk' uses').2 = (after config disk uses).2

/-- **The sinks of a journal agree after any calls.** -/
theorem sinksAgree_after (config : JournalConfig) (disk : Disk) (uses : List Use) :
    SinksAgree config disk uses where
  history := by
    rintro before recent rfl hc hbefore
    have hconfig : ((start config disk).1.run before).1.config = config := config_run before
    have hempty : ((start config disk).1.run before).1.events = [] := by
      obtain rfl | ⟨earlier, rfl⟩ := hbefore
      · rfl
      · rw [run_append]
        rfl
    rw [after, run_append, events_run hc (.inr (by rw [hempty]; exact Nat.zero_le _)), hempty,
      hconfig, enabled_run, accepted, accepted, trials_append, List.map_append, List.drop_left,
      List.nil_append, map_fst_trials _ _ _ (before.foldl Use.ok true)]
    rfl
  console := by
    rw [after, printed_run]
    show (if config.console then (trials config.level true disk.writes uses).map _ else []) = _
    rw [accepted, map_fst_trials _ _ true disk.writes, List.map_map]
    rfl
  file := content_after config disk uses
  unaffected := by
    intro disk' uses' hsame
    have hb : config.history = 0 ∨ ([] : List Event).length ≤ config.history := .inr (Nat.zero_le _)
    have hcalls : ∀ d us,
        (after config d us).1.events = (after config disk (us.filter Use.isCall)).1.events ∧
        (after config d us).2 = (after config disk (us.filter Use.isCall)).2 :=
      fun d us => run_filter us rfl rfl rfl hb
    obtain ⟨hevents, hprinted⟩ := hcalls disk uses
    obtain ⟨hevents', hprinted'⟩ := hcalls disk' uses'
    rw [hevents, hprinted, hevents', hprinted', hsame]
    exact ⟨rfl, rfl⟩

end Run

end Journal

end ManagedHeap
