import ManagedHeap.Proofs.Roots

/-!
# Ledgers

**Input.**  An act, or a run with its history.

**Algorithm.**  An act loses some assets and gains others; which duties and jobs are among them is
told by its deeds.  So what is outstanding is what the history has given out less what it has taken
back.

**Results.**  `Act.exists_turnover`, and how a reference changes (`Act.turn`).  Over whole runs:
claims that are outstanding were made and not pushed (`World.claims_after`), jobs were scheduled and
neither run nor dropped (`World.jobs_after`), and attached finalizers came with their objects and
were not taken (`World.attached_after`).
-/

namespace ManagedHeap

variable {k : Handle} {gained : Multiset Asset}

namespace Deed

variable {β : Type} {g : Deed → List β} {α : Type} {k : α → Deed}

def claims : Deed → List Handle
  | .claimed h => [h]
  | _ => []

def pushes : Deed → List Handle
  | .pushed _ h => [h]
  | _ => []

def allocates : Deed → List (Root × Finalizer)
  | .allocated r f => [(r, f)]
  | _ => []

def schedules : Deed → List (Root × Finalizer)
  | .scheduled r f => [(r, f)]
  | _ => []

def discards : Deed → List (Root × Finalizer)
  | .discarded r f => [(r, f)]
  | _ => []

def runs : Deed → List (Root × Finalizer)
  | .ran r f => [(r, f)]
  | _ => []

def drops : Deed → List (Root × Finalizer)
  | .dropped r f => [(r, f)]
  | _ => []

def tally (g : Deed → List β) (deeds : List Deed) : Multiset β := ↑(deeds.flatMap g)

@[simp]
theorem tally_nil : tally g [] = 0 := rfl

@[simp]
theorem tally_cons (d : Deed) (deeds : List Deed) : tally g (d :: deeds) = ↑(g d) + tally g deeds :=
  (Multiset.coe_add _ _).symm

@[simp]
theorem tally_append (deeds more : List Deed) :
    tally g (deeds ++ more) = tally g deeds + tally g more := by
  unfold tally
  rw [List.flatMap_append, Multiset.coe_add]

theorem tally_eq_zero (h : ∀ d ∈ deeds, g d = []) : tally g deeds = 0 := by
  unfold tally
  rw [List.flatMap_eq_nil_iff.mpr h]
  rfl

theorem tally_map_of_nil (l : List α) (h : ∀ x, g (k x) = []) : tally g (l.map k) = 0 :=
  tally_eq_zero fun d hd => by
    obtain ⟨x, -, rfl⟩ := List.mem_map.mp hd
    exact h x

theorem tally_map_of_singleton (l : List α) {f : α → β} (h : ∀ x, g (k x) = [f x]) :
    tally g (l.map k) = ↑(l.map f) := by
  unfold tally
  rw [List.flatMap_map]
  simp only [h]
  rw [← List.map_eq_flatMap]

end Deed

namespace Asset

/-- The reference that is to be put on its queue. -/
def claims : Asset → List Handle
  | .claim _ h => [h]
  | _ => []

def jobs : Asset → List (Root × Finalizer)
  | .job j => [(j.object, j.finalizer)]
  | _ => []

/-- Whether an asset is neither a duty nor a job. -/
def Plain (a : Asset) : Prop := a.claims = [] ∧ a.jobs = [] ∧ ∀ h, a ≠ .pending h

@[simp]
theorem plain_root (r : Root) : (root r).Plain := ⟨rfl, rfl, by simp⟩

@[simp]
theorem plain_handle (h : Handle) : (handle h).Plain := ⟨rfl, rfl, by simp⟩

@[simp]
theorem plain_closure (f : Finalizer) : (closure f).Plain := ⟨rfl, rfl, by simp⟩

end Asset

/-- Whether a deed is about neither duties nor jobs. -/
def Deed.Quiet (d : Deed) : Prop :=
  d.claims = [] ∧ d.pushes = [] ∧ d.schedules = [] ∧ d.runs = [] ∧ d.drops = []

open Asset Deed

/-- What an act loses and gains, as its deeds tell it. -/
structure Turnover (c' : Core) (deeds : List Deed) (lost gained : Multiset Asset) : Prop where
  pushed : gather Asset.claims lost = tally pushes deeds
  claimed : gather Asset.claims gained = tally Deed.claims deeds
  ended : gather jobs lost = tally runs deeds + tally drops deeds
  scheduled : gather jobs gained = tally schedules deeds
  /-- Only an enqueued reference is to be put on a queue, and on its own one. -/
  routed : ∀ q h, Asset.claim q h ∈ gained → ∃ r, c'.reference? h = some r ∧ r.queue = some q ∧
    r.stage = .enqueued
  /-- A list of pending references keeps them until they are not pending. -/
  discharged : ∀ h, Asset.pending h ∈ lost → ∀ r, c'.reference? h = some r → r.stage ≠ .pending

/-- How a reference came to be what it is after an act that leaves this hand. -/
inductive Turn (c : Core) (p' : Multiset Asset) (deeds : List Deed) (k : Handle) (r' : Reference) :
    Prop
  | stays {r : Reference} (hr : c.reference? k = some r) (hs : r'.stage = r.stage)
      (hq : r'.queue = r.queue) (hd : k ∉ tally Deed.claims deeds)
  | made (hr : c.reference? k = none) (hs : r'.stage = .active) (hd : k ∉ tally Deed.claims deeds)
  /-- A collection lost its object; a list of pending references holds on to it. -/
  | pends {r : Reference} (hr : c.reference? k = some r)
      (hs : r.stage = .active) (hs' : r'.stage = .pending)
      (hq : r'.queue = r.queue) (hp : Asset.pending k ∈ p') (hd : k ∉ tally Deed.claims deeds)
  | claimed {r : Reference} {q : Nat} (hr : c.reference? k = some r) (hq : r.queue = some q)
      (hs : r.stage = .active ∨ r.stage = .pending) (hs' : r'.stage = .enqueued)
      (hq' : r'.queue = some q) (hd : tally Deed.claims deeds = {k})
  | settled {r : Reference} (hr : c.reference? k = some r)
      (hs : r.stage = .pending ∧ r.queue = none ∨ r.stage = .enqueued) (hs' : r'.stage = .inactive)
      (hq : r'.queue = r.queue) (hd : k ∉ tally Deed.claims deeds)

theorem Turnover.plain (hd : ∀ d ∈ deeds, d.Quiet)
    (hl : ∀ a ∈ lost, a.Plain) (hg : ∀ a ∈ gained, a.Plain) : Turnover c' deeds lost gained where
  pushed := by rw [gather_eq_zero fun a ha => (hl a ha).1, tally_eq_zero fun d h => (hd d h).2.1]
  claimed := by rw [gather_eq_zero fun a ha => (hg a ha).1, tally_eq_zero fun d h => (hd d h).1]
  ended := by
    rw [gather_eq_zero fun a ha => (hl a ha).2.1, tally_eq_zero fun d h => (hd d h).2.2.2.1,
      tally_eq_zero fun d h => (hd d h).2.2.2.2, add_zero]
  scheduled := by
      rw [gather_eq_zero fun a ha => (hg a ha).2.1, tally_eq_zero fun d h => (hd d h).2.2.1]
  routed q h hmem := by cases (hg _ hmem).1
  discharged h hmem := absurd rfl ((hl _ hmem).2.2 h)

namespace Core

variable {c : Core}

theorem reference?_addHeap (hx : x.heap.references = #[]) (k : Handle) :
    ({ c with cells := c.cells.push x } : Core).reference? k = c.reference? k := by
  unfold reference? heaps
  rw [Array.map_push, Array.getElem?_push]
  split
  · next he =>
      rw [he, Array.getElem?_eq_none le_rfl]
      simp [hx]
  · rfl

section NewReferences

variable {e id i : Nat} {x x' : Heap Finalizer} {kind : ReferenceKind} {r : Root}
  {queue : Option Nat}

theorem reference?_fresh (hx : c.heaps[e]? = some x)
    (hn : x.newReference id kind r queue = .ok (i, x')) : c.reference? ⟨e, i⟩ = none := by
  unfold Heap.newReference at hn
  split at hn <;> cases hn
  unfold reference?
  rw [hx, Option.bind_some, Array.getElem?_eq_none le_rfl]

theorem reference?_refer (hx : c.heaps[e]? = some x)
    (hn : x.newReference id kind r queue = .ok (i, x')) (k : Handle) :
    (c.modifyHeap e fun _ => x').reference? k =
      if k = ⟨e, i⟩ then some ⟨id, kind, some r.object, .active, queue, x.clock, 1⟩
        else c.reference? k := by
  unfold Heap.newReference at hn
  split at hn <;> cases hn
  rcases k with ⟨e', j⟩
  rw [reference?_modifyHeap]
  by_cases he : e = e'
  · subst he
    rw [if_pos rfl, hx, Option.bind_some]
    dsimp only
    rw [Array.getElem?_push]
    by_cases hj : j = x.references.size
    · rw [if_pos hj, if_pos (by rw [hj])]
    · rw [if_neg hj, if_neg (fun h => hj (Handle.mk.inj h).2), reference?, hx]
      rfl
  · rw [if_neg he, if_neg fun h => he (Handle.mk.inj h).1.symm]

end NewReferences

section Lines

variable {q : Nat} {l : Line}

theorem exists_assets_line (hl : c.lines[q]? = some l) (f : Line → Line) :
    ∃ rest, c.assets = ↑(l.entries.map Asset.handle) + rest ∧
      (c.modifyLine q f).assets = ↑((f l).entries.map Asset.handle) + rest := by
  obtain ⟨rest, h, h'⟩ :=
    exists_total_modify hl f fun x => (↑(x.entries.map Asset.handle) : Multiset Asset)
  refine ⟨c.bindings.assets + rest +
    (total c.channels (fun x => x.flatMap Message.assets) + total c.threads Stack.assets), ?_, ?_⟩
  · rw [assets, h]
    abel
  · rw [assets]
    unfold modifyLine
    dsimp only
    rw [h']
    simp only [channels]
    abel

theorem assets_enqueue (hl : c.lines[q]? = some l) (k : Handle) : (c.modifyLine q fun l =>
      ⟨l.entries ++ [k], l.enqueued + 1⟩).assets = c.assets + {.handle k} := by
  obtain ⟨rest, hbefore, hafter⟩ :=
    exists_assets_line hl fun l => ⟨l.entries ++ [k], l.enqueued + 1⟩
  have happend : (↑((l.entries ++ [k]).map Asset.handle) : Multiset Asset) =
      ↑(l.entries.map Asset.handle) + {.handle k} := by
    rw [List.map_append, ← Multiset.coe_add]
    rfl
  rw [hafter, hbefore, happend]
  abel

theorem assets_dequeue (hq : c.lines[q]? = some ⟨k :: rest, n⟩) :
    (c.modifyLine q fun _ => ⟨rest, n⟩).assets + {.handle k} = c.assets := by
  obtain ⟨others, hbefore, hafter⟩ := exists_assets_line hq fun _ => ⟨rest, n⟩
  have hcons : (↑((k :: rest).map Asset.handle) : Multiset Asset) =
      {.handle k} + ↑(rest.map Asset.handle) := rfl
  rw [hafter, hbefore, hcons]
  abel

theorem modifyLine_of_none (hl : c.lines[q]? = none) (f : Line → Line) : c.modifyLine q f = c := by
  unfold modifyLine
  rw [modify_eq_self fun l hl' => ?_]
  rw [hl] at hl'
  cases hl'

end Lines

end Core

namespace Act

variable {c c' : Core} {p p' : Multiset Asset} {deeds : List Deed}

section Turnover

theorem owners_of_hand (hc : c'.assets = c.assets) (hp : p' + lost = p + gained) :
    c'.assets + p' + lost = c.assets + p + gained := by
  rw [hc, add_assoc, hp, add_assoc]

theorem cons_add_zero (a : Asset) (p : Multiset Asset) : a ::ₘ p + 0 = p + {a} := by
  rw [add_zero, add_comm, Multiset.singleton_add]

theorem turnover_enqueue (q : Nat) (k : Handle) (hg : ∀ a ∈ gained, a.Plain) :
    Turnover c [.pushed q k] {.claim q k} gained where
  pushed := by simp [pushes, Asset.claims]
  claimed := by simp [Deed.claims, gather_eq_zero fun a ha => (hg a ha).1]
  ended := by simp [runs, drops, jobs]
  scheduled := by simp [schedules, gather_eq_zero fun a ha => (hg a ha).2.1]
  routed q' h hmem := by cases (hg _ hmem).1
  discharged := by simp

theorem exists_turnover_enqueue (q : Nat) (k : Handle) :
    ∃ lost gained, ((c.modifyHeap k.heap (·.retain k.position)).modifyLine q fun l => ⟨l.entries ++
      [k], l.enqueued + 1⟩).assets + p + lost = c.assets + (.claim q k ::ₘ p) + gained ∧
    Turnover ((c.modifyHeap k.heap (·.retain k.position)).modifyLine q fun l =>
      ⟨l.entries ++ [k], l.enqueued + 1⟩) [.pushed q k] lost gained := by
  cases hl : (c.modifyHeap k.heap (·.retain k.position)).lines[q]? with
  | none =>
    refine ⟨{.claim q k}, 0, owners_of_hand ?_ (cons_add_zero _ _).symm,
      turnover_enqueue q k (by simp)⟩
    rw [Core.modifyLine_of_none hl, Core.assets_modifyHeap]
  | some l =>
    refine ⟨{.claim q k}, {.handle k}, ?_, turnover_enqueue q k (by simp)⟩
    rw [Core.assets_enqueue hl, Core.assets_modifyHeap, ← Multiset.singleton_add]
    abel

theorem exists_turnover_pause (e : Nat) (x : Heap Finalizer)
    (settings : Settings) (reason : Reason) :
    ∃ lost gained, (c.modifyHeap e fun y => (y.pause settings reason).heap).assets +
      (↑((x.pause settings reason).discarded.map fun d => Asset.closure d.2) +
      (↑((x.pause settings reason).pending.map fun i => Asset.pending ⟨e, i⟩) +
      (↑((x.pause settings reason).jobs.map Asset.job) + p))) + lost = c.assets + p + gained ∧
    Turnover (c.modifyHeap e fun y => (y.pause settings reason).heap)
    (.paused e :: (((x.pause settings reason).jobs.map fun j => .scheduled j.object j.finalizer) ++
      (x.pause settings reason).discarded.map fun d => .discarded ⟨x.key, d.1⟩ d.2)) lost
    gained := by
  generalize x.pause settings reason = outcome
  refine ⟨0, ↑(outcome.discarded.map fun d => Asset.closure d.2) +
    (↑(outcome.pending.map fun i => Asset.pending ⟨e, i⟩) + ↑(outcome.jobs.map Asset.job)),
    owners_of_hand Core.assets_modifyHeap ?_, ?_, ?_, ?_, ?_, ?_, by simp⟩
  · abel
  · rw [tally_cons, tally_append, tally_map_of_nil _ fun _ => rfl, tally_map_of_nil _ fun _ => rfl]
    rfl
  · rw [gather_add, gather_add, gather_map_of_nil _ fun _ => rfl, gather_map_of_nil _ fun _ => rfl,
      gather_map_of_nil _ fun _ => rfl, tally_cons, tally_append, tally_map_of_nil _ fun _ => rfl,
      tally_map_of_nil _ fun _ => rfl]
    rfl
  · rw [tally_cons, tally_append, tally_map_of_nil _ fun _ => rfl, tally_map_of_nil _ fun _ => rfl,
      tally_cons, tally_append, tally_map_of_nil _ fun _ => rfl, tally_map_of_nil _ fun _ => rfl]
    rfl
  · have hjobs : gather jobs ↑(outcome.jobs.map Asset.job) =
        tally schedules (outcome.jobs.map fun j => .scheduled j.object j.finalizer) := by
      rw [gather_coe, tally, List.flatMap_map, List.flatMap_map]
      rfl
    rw [gather_add, gather_add, gather_map_of_nil _ fun _ => rfl, gather_map_of_nil _ fun _ => rfl,
      hjobs, tally_cons, tally_append, tally_map_of_nil outcome.discarded fun _ => rfl]
    simp [schedules]
  · simp

theorem exists_turnover (h : Act L c p deeds c' p') : ∃ lost gained,
    c'.assets + p' + lost = c.assets + p + gained ∧ Turnover c' deeds lost gained := by
  have nothing : Turnover c' [] 0 0 := .plain (by simp) (by simp) (by simp)
  cases h with
  | transfer _ _ _ owners => exact ⟨0, 0, by rw [owners], nothing⟩
  | makeHeap => exact ⟨0, 0, by rw [Core.assets_addHeap rfl], nothing⟩
  | makeLine => exact ⟨0, 0, by rw [Core.assets_addLine], nothing⟩
  | fetch | clone | refer | retain =>
    exact ⟨0, {_}, owners_of_hand Core.assets_modifyHeap (cons_add_zero _ _),
      .plain (by simp) (by simp) (by simp)⟩
  | drop | release =>
    exact ⟨{_}, 0, owners_of_hand Core.assets_modifyHeap (cons_add_zero _ _).symm,
      .plain (by simp) (by simp) (by simp)⟩
  | finish | write | adjust | settle => exact ⟨0, 0, by rw [Core.assets_modifyHeap], nothing⟩
  | @store e _ x hx size fields f =>
    refine ⟨↑(f.toList.map Asset.closure), {.root x.nextRoot},
      owners_of_hand Core.assets_modifyHeap ?_, .plain ?_ ?_ (by simp)⟩
    · rw [← Multiset.singleton_add]
      abel
    · cases f <;> simp [Quiet, Deed.claims, pushes, schedules, runs, drops]
    · cases f <;> simp
  | @claim k r q _ hr hq hs =>
    refine ⟨0, {_}, owners_of_hand Core.assets_modifyHeap (cons_add_zero _ _), ?_, ?_, ?_, ?_,
      ?_, by simp⟩
    · simp [pushes]
    · simp [Deed.claims, Asset.claims]
    · simp [runs, drops]
    · simp [schedules, jobs]
    · intro q' k' hmem
      cases Multiset.mem_singleton.mp hmem
      rw [Core.reference?_updateReference, if_pos rfl, hr]
      exact ⟨_, rfl, hq, rfl⟩
  | @discharge k _ hs =>
    refine ⟨{_}, 0, owners_of_hand Core.assets_modifyHeap (cons_add_zero _ _).symm, ?_, ?_, ?_,
      ?_, by simp, ?_⟩
    · simp [Asset.claims]
    · simp
    · simp [jobs]
    · simp
    · intro k' hmem r hr
      cases Multiset.mem_singleton.mp hmem
      simp only [Heap.release] at hr
      rw [Core.reference?_updateReference, if_pos rfl] at hr
      obtain ⟨r₀, hr₀, rfl⟩ := Option.map_eq_some_iff.mp hr
      exact hs r₀ hr₀
  | @enqueue _ q k => exact exists_turnover_enqueue q k
  | @dequeue q k rest n _ hq =>
    refine ⟨0, 0, ?_,
      .plain (by simp [Quiet, Deed.claims, pushes, schedules, runs, drops]) (by simp) (by simp)⟩
    rw [← Core.assets_dequeue hq, ← Multiset.singleton_add]
    abel
  | @pause e _ x hx settings reason => exact exists_turnover_pause _ _ _ _
  | bind f =>
    refine ⟨↑(f.held.map Asset.root), {.closure f}, owners_of_hand rfl ?_,
      .plain (by simp) (by simp) (by simp)⟩
    rw [← Multiset.singleton_add]
    abel
  | unbind f =>
    refine ⟨{.closure f}, ↑(f.held.map Asset.root), owners_of_hand rfl ?_,
      .plain (by simp) (by simp) (by simp)⟩
    rw [← Multiset.singleton_add]
    abel
  | run j =>
    refine ⟨{.job j}, ↑(j.finalizer.held.map Asset.root) + {.root j.object}, owners_of_hand rfl ?_,
      ?_, ?_, ?_, ?_, ?_, by simp⟩
    · rw [← Multiset.singleton_add, ← Multiset.singleton_add]
      abel
    · simp [Asset.claims, pushes]
    · rw [gather_add, gather_map_of_nil _ fun _ => rfl]
      rfl
    · simp [jobs, runs, drops]
    · rw [gather_add, gather_map_of_nil _ fun _ => rfl]
      rfl
    · simp
  | discard j =>
    refine ⟨{.job j}, {.root j.object} + {.closure j.finalizer}, owners_of_hand rfl ?_, ?_, ?_, ?_,
      ?_, ?_, by simp⟩
    · rw [← Multiset.singleton_add, ← Multiset.singleton_add, ← Multiset.singleton_add]
      abel
    · simp [Asset.claims, pushes]
    · simp [Asset.claims, Deed.claims]
    · simp [jobs, runs, drops]
    · simp [jobs, schedules]
    · simp

end Turnover

section Ledgers

theorem jobs_add (h : Act L c p deeds c' p') :
    gather jobs (c'.assets + p') + (tally runs deeds + tally drops deeds) =
      gather jobs (c.assets + p) + tally schedules deeds := by
  obtain ⟨lost, gained, howners, ht⟩ := h.exists_turnover
  rw [← ht.ended, ← ht.scheduled, ← gather_add, howners, gather_add]

theorem attached_add_of_eq (h : c'.attached = c.attached)
    (hd : ∀ d ∈ deeds, d.schedules = [] ∧ d.discards = [] ∧ d.allocates = []) : c'.attached +
      (tally schedules deeds + tally discards deeds) = c.attached + tally allocates deeds := by
  rw [h, tally_eq_zero fun d hmem => (hd d hmem).1, tally_eq_zero fun d hmem => (hd d hmem).2.1,
    tally_eq_zero fun d hmem => (hd d hmem).2.2, add_zero]

/-- A collection takes finalizers from their objects and says what becomes of them. -/
theorem attached_add_pause (ht : c.Tidy) (hx : c.heaps[e]? = some x) (settings : Settings)
    (reason : Reason) : (c.modifyHeap e fun y => (y.pause settings reason).heap).attached +
      (↑((x.pause settings reason).jobs.map fun j => (j.object, j.finalizer)) +
      ↑((x.pause settings reason).discarded.map fun d => ((⟨x.key, d.1⟩ : Root), d.2))) =
      c.attached := by
  obtain ⟨rest, hbefore, hafter⟩ :=
    Core.exists_attached_modifyHeap hx fun y => (y.pause settings reason).heap
  rw [hbefore, hafter, Heap.attachments_pause (ht e x hx).2 settings reason]
  abel

theorem attached_add (h : Act L c p deeds c' p') (ht : c.Tidy) : c'.attached +
      (tally schedules deeds + tally discards deeds) = c.attached + tally allocates deeds := by
  have onRecord : ∀ {e id f} {n : Heap Finalizer → Nat}, (∀ r, (f r).finalizer = r.finalizer) →
      (c.modifyHeap e fun x => { x with space := x.space.update id f, faults := n x }).attached =
      c.attached := fun hf => Core.attached_modifyHeap fun x _ => Heap.attachments_update _ hf
  have onReference : ∀ {e i g},
      (c.modifyHeap e (·.updateReference i g)).attached = c.attached :=
    Core.attached_modifyHeap fun x _ => Heap.attachments_congr rfl fun _ => rfl
  cases h with
  | transfer heaps => exact attached_add_of_eq (Core.attached_of_heaps heaps) (by simp)
  | makeHeap =>
    refine attached_add_of_eq ?_ (by simp)
    unfold Core.attached Core.heaps
    simp [total_push, Heap.attachments_empty]
  | makeLine | bind | unbind => exact attached_add_of_eq rfl (by simp)
  | fetch | clone | drop | finish | write =>
    exact attached_add_of_eq (onRecord fun _ => rfl) (by simp)
  | @store e _ x hx size fields f =>
    obtain ⟨rest, hbefore, hafter⟩ := Core.exists_attached_modifyHeap hx (·.store size fields f)
    rw [hbefore, hafter, Heap.attachments_store (ht e x hx).2]
    cases f with
    | none => simp
    | some f =>
      simp only [Option.toList_some, List.map_cons, List.map_nil, tally_cons, tally_nil, schedules,
        discards, allocates]
      rw [Multiset.coe_nil]
      abel
  | refer hx hn =>
    refine attached_add_of_eq (Core.attached_modifyHeap fun y hy => ?_) (by simp)
    rw [hx] at hy
    cases hy
    exact Heap.attachments_congr (Heap.key_newReference hn)
      fun id => by rw [Heap.space_newReference hn]
  | adjust | settle | retain | release | discharge => exact attached_add_of_eq onReference (by simp)
  | claim => exact attached_add_of_eq onReference (by simp [schedules, discards, allocates])
  | enqueue q k =>
    have hretain : (c.modifyHeap k.heap (·.retain k.position)).attached = c.attached := onReference
    exact attached_add_of_eq hretain (by simp [schedules, discards, allocates])
  | dequeue | run | discard =>
    exact attached_add_of_eq rfl (by simp [schedules, discards, allocates])
  | @pause e _ x hx settings reason =>
    have htaken := attached_add_pause ht hx settings reason
    generalize x.pause settings reason = outcome at htaken ⊢
    have hscheduled : tally schedules (.paused e ::
          ((outcome.jobs.map fun j => .scheduled j.object j.finalizer) ++
            outcome.discarded.map fun d => .discarded ⟨x.key, d.1⟩ d.2)) =
        ↑(outcome.jobs.map fun j => (j.object, j.finalizer)) := by
      rw [tally_cons, tally_append, tally_map_of_singleton _ fun _ => rfl,
        tally_map_of_nil _ fun _ => rfl]
      simp [schedules]
    have hdiscarded :
        tally discards (.paused e :: ((outcome.jobs.map fun j => .scheduled j.object j.finalizer) ++
          outcome.discarded.map fun d => .discarded ⟨x.key, d.1⟩ d.2)) =
        ↑(outcome.discarded.map fun d => ((⟨x.key, d.1⟩ : Root), d.2)) := by
      rw [tally_cons, tally_append, tally_map_of_nil _ fun _ => rfl,
        tally_map_of_singleton _ fun _ => rfl]
      simp [discards]
    rw [hscheduled, hdiscarded, htaken, tally_cons, tally_append, tally_map_of_nil _ fun _ => rfl,
      tally_map_of_nil _ fun _ => rfl]
    simp [allocates]

end Ledgers

section Turns

variable {r' : Reference}

theorem turn_of_reference (hr : c'.reference? k = some r') (h : c'.reference? k = c.reference? k)
    (hd : k ∉ tally Deed.claims deeds) : Turn c p deeds k r' :=
  .stays (by rwa [← h]) rfl rfl hd

theorem turn_of_updateReference
    (hr : (c.modifyHeap h.heap (·.updateReference h.position g)).reference? k = some r')
    (hg : ∀ r, c.reference? h = some r → Turn c p deeds h (g r))
    (hd : k ≠ h → k ∉ tally Deed.claims deeds) : Turn c p deeds k r' := by
  rw [Core.reference?_updateReference] at hr
  split at hr
  · next hk =>
      subst hk
      obtain ⟨r, hr₀, rfl⟩ := Option.map_eq_some_iff.mp hr
      exact hg r hr₀
  · next hk => exact .stays hr rfl rfl (hd hk)

theorem turn_pause (hx : c.heaps[e]? = some x)
    (hp : ∀ i ∈ (x.pause settings reason).pending, Asset.pending ⟨e, i⟩ ∈ p)
    (hd : tally Deed.claims deeds = 0)
    (hr : (c.modifyHeap e fun y => (y.pause settings reason).heap).reference? k = some r') :
    Turn c p deeds k r' := by
  rw [Core.reference?_modifyHeap] at hr
  split at hr
  · next he =>
      subst he
      rw [hx, Option.bind_some, Heap.references_pause, Heap.getElem?_makePending] at hr
      obtain ⟨r, hr₁, rfl⟩ := Option.map_eq_some_iff.mp hr
      have hr₀ : c.reference? k = some r := Option.bind_eq_some_iff.mpr ⟨x, hx, hr₁⟩
      unfold Heap.afterPending
      split
      · exact .stays hr₀ rfl rfl (by simp [hd])
      · next hcount =>
          have hmem : k.position ∈ (x.pause settings reason).pending :=
            List.count_pos_iff.mp (Nat.pos_of_ne_zero hcount)
          unfold Reference.makePending
          split
          · next hs => exact .pends hr₀ hs rfl rfl (hp _ hmem) (by simp [hd])
          · exact .stays hr₀ rfl rfl (by simp [hd])
  · exact .stays hr rfl rfl (by simp [hd])

theorem turn (h : Act L c p deeds c' p') (hr : c'.reference? k = some r') :
    Turn c p' deeds k r' := by
  have onSpace : ∀ {e f}, (∀ x, (f x).references = x.references) →
      (c.modifyHeap e f).reference? k = c.reference? k := by
    intro e f hf
    rw [Core.reference?_modifyHeap]
    split
    · next he =>
        subst he
        simp only [hf]
        rfl
    · rfl
  cases h with
  | transfer heaps => exact turn_of_reference hr (by simp only [Core.reference?, heaps]) (by simp)
  | makeHeap => exact turn_of_reference hr (Core.reference?_addHeap rfl k) (by simp)
  | makeLine | bind | unbind => exact turn_of_reference hr rfl (by simp)
  | fetch | clone | drop | finish | write =>
    exact turn_of_reference hr (onSpace fun _ => rfl) (by simp)
  | store hx size fields f =>
    exact turn_of_reference hr (onSpace fun _ => rfl) (by cases f <;> simp [Deed.claims])
  | refer hx hn =>
    rw [Core.reference?_refer hx hn] at hr
    split at hr
    · next hk =>
        subst hk
        cases hr
        exact .made (Core.reference?_fresh hx hn) rfl (by simp)
    · exact .stays hr rfl rfl (by simp)
  | adjust h g hg =>
    exact turn_of_updateReference hr (fun r hr => .stays hr (hg r).stage (hg r).queue (by simp))
      (by simp)
  | @settle h r _ hr₀ hs =>
    refine turn_of_updateReference hr (fun r' hr' => ?_) (by simp)
    rw [hr₀] at hr'
    cases hr'
    exact .settled hr₀ hs rfl rfl (by simp)
  | @claim h r q _ hr₀ hq hs =>
    refine turn_of_updateReference hr (fun r' hr' => ?_) (by simp [Deed.claims])
    rw [hr₀] at hr'
    cases hr'
    exact .claimed hr₀ hq hs rfl hq (by simp [Deed.claims])
  | retain | release | discharge =>
    exact turn_of_updateReference hr (fun r hr => .stays hr rfl rfl (by simp)) (by simp)
  | enqueue q h =>
    have hr' : (c.modifyHeap h.heap (·.retain h.position)).reference? k = some r' := hr
    exact turn_of_updateReference hr' (fun r hr =>
      .stays hr rfl rfl (by simp [Deed.claims])) (by simp [Deed.claims])
  | dequeue | run | discard => exact turn_of_reference hr rfl (by simp [Deed.claims])
  | pause hx settings reason =>
    refine turn_pause hx (fun i hi => ?_) ?_ hr
    · exact Multiset.mem_add.mpr
        (.inr (Multiset.mem_add.mpr (.inl (List.mem_map.mpr ⟨i, hi, rfl⟩))))
    · rw [tally_cons, tally_append, tally_map_of_nil _ fun _ => rfl,
        tally_map_of_nil _ fun _ => rfl]
      rfl

end Turns

end Act

namespace World

section Runs

variable (s : EngineSpec) (label : String) (moves : List Move)

theorem assets_empty : ({} : World).core.assets = 0 := by
  simp [Core.assets, core, Names.bindings, Bindings.assets, Core.channels, total]

theorem attached_empty : ({} : World).core.attached = 0 := by
  simp [Core.attached, core, Core.heaps, total]

theorem ledger_append {β : Type} {a a' out out' inn inn' : Multiset β} (h : a + out = inn)
    (h' : a' + out' = a + inn') : a' + (out + out') = inn + inn' := by
  rw [← h, add_left_comm, h', add_left_comm, add_assoc]

/-- **Jobs that are outstanding were scheduled, and neither run nor dropped.** -/
theorem jobs_after :
    gather jobs ((start s label).after moves).core.assets +
        (tally runs ((start s label).history moves) + tally drops ((start s label).history moves)) =
      tally schedules ((start s label).history moves) := by
  have h := invariant_after (P := fun c p past =>
        gather jobs (c.assets + p) + (tally runs past + tally drops past) = tally schedules past)
      (fun _ hact h => ?_) (by simp [assets_empty]) s label moves
  · rwa [add_zero] at h
  · rw [tally_append, tally_append, tally_append, add_add_add_comm]
    exact ledger_append h hact.jobs_add

/-- **Finalizers that are attached came with their objects, and no collection took them.** -/
theorem attached_after :
    ((start s label).after moves).core.attached +
        (tally schedules ((start s label).history moves) +
          tally discards ((start s label).history moves)) =
      tally allocates ((start s label).history moves) := by
  refine (invariant_after (P := fun c _ past => c.Tidy ∧
      c.attached + (tally schedules past + tally discards past) = tally allocates past)
    (fun _ hact h => ?_) ⟨Core.tidy_empty, by simp [attached_empty]⟩ s label moves).2
  refine ⟨hact.tidy h.1, ?_⟩
  rw [tally_append, tally_append, tally_append, add_add_add_comm]
  exact ledger_append h.2 (hact.attached_add h.1)

end Runs

end World

end ManagedHeap
