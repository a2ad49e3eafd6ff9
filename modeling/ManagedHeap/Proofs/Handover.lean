import ManagedHeap.Proofs.WorldStopKeepers

/-!
# Sections hand pauses over

**Input.**  A world as registries see it, and a section of a call that a thread makes on a registry.

**Algorithm.**  A section begins a pause, ends it, or passes it from the task that waits for threads
to the value of the call; all other sections leave pauses to their keepers.  An attachment gives a
number that nobody had, and a detachment takes back the number of its own thread.

**Results.**  `Station.handover` lists what happens to the keeper of a pause; `Yard.Lawful.operate`:
a section keeps a world lawful.
-/

namespace ManagedHeap

variable {k : Nat}

theorem Badge.eq_of_idIn {badge : Option Badge} {e : Nat} {id : ThreadId}
    (h : Badge.idIn badge e = some id) : ∃ b, badge = some b ∧ b.engine = e ∧ b.id = id := by
  cases badge with
  | none => cases h
  | some b =>
    simp only [idIn] at h
    split at h <;> cases h
    next he => exact ⟨b, rfl, he, rfl⟩

namespace Station

/-- A thread after a section of a call on the registry of an engine. -/
def advance (x : Station) (e : Nat) (rest : List Task) : Progress → Station
  | .finished => { x with tasks := rest }
  | .answered v => { x with tasks := rest, reply := v }
  | .continues op => { x with tasks := .registry e op :: rest }

variable {F : Prop} {x : Station} {n e t : Nat} {rest : List Task} {op : Operation} {p : Progress}
  {r r' : Registry}

theorem badge_advance : (x.advance e rest p).badge = x.badge := by
  cases p <;> rfl

/-- A call that is over gives what the next task takes; a call that goes on takes nothing. -/
theorem expects_advance (x : Station) (p : Progress)
    (hexpects : expects rest = (Task.registry e op).gives) :
    expects (x.advance e rest p).tasks = none ∨
    expects (x.advance e rest p).tasks = (Task.registry e op).gives := by
  cases p with
  | finished => exact .inr hexpects
  | answered v => exact .inr hexpects
  | continues op => exact .inl rfl

theorem orderly_advance (h : Orderly F n x.badge (.registry e op :: rest))
    (hsec : r.Section t op r' p) :
    Orderly F n (x.advance e rest p).badge (x.advance e rest p).tasks := by
  rw [badge_advance]
  obtain ⟨hsuits, hexpects, hrest⟩ := h
  cases p with
  | finished => exact hrest
  | answered v => exact hrest
  | continues op' =>
    rcases hsec.of_continues with rfl | ⟨id, hold, rfl, rfl | rfl⟩ | ⟨i, rfl, rfl⟩
    · exact ⟨hsuits, hexpects, hrest⟩
    · exact ⟨rfl, hexpects, hrest⟩
    · exact ⟨rfl, hexpects, hrest⟩
    · exact ⟨hsuits, hexpects, hrest⟩

theorem gives_ne_badge (hattach : ∀ name, op ≠ .attach name) (k : Nat) :
    (Task.registry e op).gives ≠ some (.badge k) := by
  cases op with
  | attach name => exact (hattach name rfl).elim
  | _ => nofun

theorem held_advance (hexpects : expects rest = (Task.registry e op).gives)
    (hattach : ∀ name, op ≠ .attach name) : (x.advance e rest p).held = x.badge := by
  have hbadge : (x.advance e rest p).badge = x.badge := badge_advance
  rw [← hbadge]
  refine held_of_expects fun k hk => ?_
  rcases expects_advance x p hexpects with hnone | hgives
  · rw [hnone] at hk
    cases hk
  · rw [hgives] at hk
    exact gives_ne_badge hattach k hk

/-- What a section of a call on the registry of an engine does to the keeper of a pause. -/
inductive Handover (e : Nat) (op : Operation) (p : Progress) (r r' : Registry) (x x' : Station) :
    Prop
  /-- The pause begins, and waits for threads. -/
  | begins (i : Option ThreadId) (hop : op = .stopWorld i) (hp : p = .continues (.awaitStops i))
      (hfree : r.worldStopped = false) (hstopped : r'.worldStopped = true) (hi : r'.initiator = i)
      (hguards : x'.guards = x.guards) (hawaits : x'.awaits = (e, i) :: x.awaits)
  /-- The pause begins, and everybody stands still. -/
  | stops (i : Option ThreadId) (k : Nat) (hop : op = .stopWorld i) (hp : p = .answered (.count k))
      (hfree : r.worldStopped = false) (hstopped : r'.worldStopped = true) (hi : r'.initiator = i)
      (hguards : x'.guards = e ::ₘ x.guards) (hawaits : x'.awaits = x.awaits)
  /-- Everybody has come in. -/
  | arrives (i : Option ThreadId) (k : Nat)
      (hop : op = .awaitStops i) (hp : p = .answered (.count k))
      (hstopped : r'.worldStopped = r.worldStopped) (hi : r'.initiator = r.initiator)
      (hguards : x'.guards = e ::ₘ x.guards) (hawaits : x.awaits = (e, i) :: x'.awaits)
  /-- Somebody came too late. -/
  | fails (i : Option ThreadId) (hop : op = .awaitStops i) (hp : ∀ k, p ≠ .answered (.count k))
      (hfree : r'.worldStopped = false) (hguards : x'.guards = x.guards)
      (hawaits : x.awaits = (e, i) :: x'.awaits)
  | ends (hop : op = .releaseWorld) (hfree : r'.worldStopped = false)
      (hguards : x.guards = e ::ₘ x'.guards) (hawaits : x'.awaits = x.awaits)
  /-- The section has nothing to do with a pause, or goes on waiting. -/
  | stays (hop : op ≠ .releaseWorld)
      (hp : ∀ i k, op = .stopWorld i ∨ op = .awaitStops i → p ≠ .answered (.count k))
      (hstopped : r'.worldStopped = r.worldStopped) (hi : r'.initiator = r.initiator)
      (hguards : x'.guards = x.guards) (hawaits : x'.awaits = x.awaits)

theorem guards_of_head (htasks : x.tasks = .registry e op :: rest) :
    x.guards = ↑x.worlds + (↑(Task.registry e op).guards + ↑(rest.flatMap Task.guards)) := by
  unfold guards
  have hexpects : expects x.tasks = none := by rw [htasks]; rfl
  rw [hexpects, granted_none, htasks, List.flatMap_cons, ← Multiset.coe_add]
  exact add_zero _

theorem awaits_of_head (htasks : x.tasks = .registry e op :: rest) :
    x.awaits = (Task.registry e op).awaits ++ rest.flatMap Task.awaits := by
  unfold awaits
  rw [htasks, List.flatMap_cons]

theorem guards_of_expects (hexpects : expects rest = (Task.registry e op).gives) :
    Station.guards { x with tasks := rest, reply := v } =
      ↑x.worlds + ↑(rest.flatMap Task.guards) + ↑(granted (Task.registry e op).gives v) := by
  unfold guards
  dsimp only
  rw [hexpects]

theorem guards_of_count (hgives : (Task.registry e op).gives = some (.world e))
    (hguards : (Task.registry e op).guards = []) (htasks : x.tasks = .registry e op :: rest)
    (hexpects : expects rest = (Task.registry e op).gives) :
    Station.guards { x with tasks := rest, reply := .count k } = e ::ₘ x.guards := by
  rw [guards_of_expects hexpects, guards_of_head htasks, hgives, hguards]
  show (↑x.worlds + ↑(rest.flatMap Task.guards) + ↑[e] : Multiset Nat) = _
  rw [Multiset.coe_nil, zero_add, Multiset.coe_singleton, add_comm, Multiset.singleton_add]

theorem advance_continues (htasks : x.tasks = .registry e op :: rest) :
    x.advance e rest (.continues op) = x := by
  show { x with tasks := .registry e op :: rest } = x
  rw [← htasks]

/-- Calls that have nothing to do with a pause. -/
structure IsAside (op : Operation) : Prop where
  stop : ∀ i, op ≠ .stopWorld i
  await : ∀ i, op ≠ .awaitStops i
  release : op ≠ .releaseWorld

theorem IsAside.guards (h : IsAside op) : (Task.registry e op).guards = [] := by
  cases op with
  | releaseWorld => exact (h.release rfl).elim
  | _ => rfl

theorem IsAside.awaits (h : IsAside op) : (Task.registry e op).awaits = [] := by
  cases op with
  | awaitStops i => exact (h.await i rfl).elim
  | _ => rfl

theorem IsAside.granted (h : IsAside op) (v : Reply) :
    granted (Task.registry e op).gives v = [] := by
  cases op with
  | stopWorld i => exact (h.stop i rfl).elim
  | awaitStops i => exact (h.await i rfl).elim
  | _ => exact granted_none v

/-- A call that has nothing to do with a pause leaves all pauses to their keepers. -/
theorem keeps_of_isAside (hop : IsAside op) (htasks : x.tasks = .registry e op :: rest)
    (hexpects : expects rest = (Task.registry e op).gives) (hsec : r.Section t op r' p) :
    (x.advance e rest p).guards = x.guards ∧ (x.advance e rest p).awaits = x.awaits := by
  have hover : ∀ v : Reply, Station.guards { x with tasks := rest, reply := v } = x.guards ∧
      Station.awaits { x with tasks := rest, reply := v } = x.awaits := by
    intro v
    rw [guards_of_expects hexpects, hop.granted v, guards_of_head htasks, hop.guards,
      awaits_of_head htasks, hop.awaits]
    exact ⟨by simp, rfl⟩
  cases p with
  | finished => exact hover x.reply
  | answered v => exact hover v
  | continues op' =>
    have hop' : IsAside op' := by
      rcases hsec.of_continues with rfl | ⟨id, hold, rfl, -⟩ | ⟨i, rfl, -⟩
      · exact hop
      · exact ⟨nofun, nofun, nofun⟩
      · exact (hop.stop i rfl).elim
    have htasks' : (x.advance e rest (.continues op')).tasks = .registry e op' :: rest := rfl
    rw [guards_of_head htasks', guards_of_head htasks, awaits_of_head htasks',
      awaits_of_head htasks, hop.guards, hop'.guards, hop.awaits, hop'.awaits]
    exact ⟨rfl, rfl⟩

/-- Every section hands the pause of its engine over in one of these ways. -/
theorem handover (htasks : x.tasks = .registry e op :: rest)
    (hexpects : expects rest = (Task.registry e op).gives)
    (hsec : r.Section t op r' p) : Handover e op p r r' x (x.advance e rest p) := by
  rcases hsec.flags with ⟨i, rfl, hfree, hstopped, hi, hp⟩ | ⟨i, err, rfl, hfree, -, rfl⟩ |
    ⟨rfl, hfree, -, rfl⟩ | ⟨hstopped, hi, hrelease, hstop, hawait⟩
  · rcases hp with rfl | ⟨k, rfl⟩
    · have htasks' : (x.advance e rest (.continues (.awaitStops i))).tasks =
          .registry e (.awaitStops i) :: rest := rfl
      refine .begins i rfl rfl hfree hstopped hi ?_ ?_
      · rw [guards_of_head htasks', guards_of_head htasks]
        rfl
      · rw [awaits_of_head htasks', awaits_of_head htasks]
        rfl
    · refine .stops i k rfl rfl hfree hstopped hi ?_ ?_
      · exact guards_of_count rfl rfl htasks hexpects
      · rw [awaits_of_head htasks]
        rfl
  · refine .fails i rfl nofun hfree ?_ (awaits_of_head htasks)
    rw [guards_of_head htasks]
    refine (guards_of_expects hexpects).trans ?_
    show (↑x.worlds + ↑(rest.flatMap Task.guards) + ↑([] : List Nat) : Multiset Nat) =
      ↑x.worlds + (↑([] : List Nat) + ↑(rest.flatMap Task.guards))
    simp
  · refine .ends rfl hfree ?_ ?_
    · rw [guards_of_head htasks]
      refine Eq.trans ?_ (congrArg _ (guards_of_expects hexpects).symm)
      show (↑x.worlds + (↑[e] + ↑(rest.flatMap Task.guards)) : Multiset Nat) =
        e ::ₘ (↑x.worlds + ↑(rest.flatMap Task.guards) + ↑(granted none x.reply))
      rw [granted_none]
      simp
    · rw [awaits_of_head htasks]
      rfl
  · -- the flags stay: a call that waits goes on as it is, or everybody has come in
    by_cases hs : ∃ i, op = .stopWorld i
    · obtain ⟨i, rfl⟩ := hs
      obtain ⟨-, rfl⟩ := hstop i rfl
      rw [advance_continues htasks]
      exact .stays hrelease (fun _ _ _ => nofun) hstopped hi rfl rfl
    · by_cases ha : ∃ i, op = .awaitStops i
      · obtain ⟨i, rfl⟩ := ha
        rcases hawait i rfl with rfl | ⟨k, rfl⟩
        · rw [advance_continues htasks]
          exact .stays hrelease (fun _ _ _ => nofun) hstopped hi rfl rfl
        · exact .arrives i k rfl rfl hstopped hi (guards_of_count rfl rfl htasks hexpects)
            (awaits_of_head htasks)
      · have haside : IsAside op := ⟨fun i hi => hs ⟨i, hi⟩, fun i hi => ha ⟨i, hi⟩, hrelease⟩
        obtain ⟨hguards, hawaits⟩ := keeps_of_isAside haside htasks hexpects hsec
        refine .stays hrelease (fun i k hop => ?_) hstopped hi hguards hawaits
        rcases hop with rfl | rfl
        · exact (haside.stop i rfl).elim
        · exact (haside.await i rfl).elim

variable {x' : Station} (h : Handover e op p r r' x x')

include h

/-- The world begins to stand still with a new keeper, goes on when its keeper is gone, or keeps its
keeper. -/
theorem Handover.tokens :
    x'.tokens = e ::ₘ x.tokens ∧ r.worldStopped = false ∧ r'.worldStopped = true ∨
      x.tokens = e ::ₘ x'.tokens ∧ r'.worldStopped = false ∨
      x'.tokens = x.tokens ∧ r'.worldStopped = r.worldStopped := by
  unfold Station.tokens
  cases h with
  | begins i _ _ hfree hstopped _ hguards hawaits =>
    refine .inl ⟨?_, hfree, hstopped⟩
    rw [hguards, hawaits, List.map_cons, ← Multiset.cons_coe, Multiset.add_cons]
  | stops i k _ _ hfree hstopped _ hguards hawaits =>
    refine .inl ⟨?_, hfree, hstopped⟩
    rw [hguards, hawaits, Multiset.cons_add]
  | arrives i k _ _ hstopped _ hguards hawaits =>
    refine .inr (.inr ⟨?_, hstopped⟩)
    rw [hguards, hawaits, List.map_cons, ← Multiset.cons_coe, Multiset.add_cons, Multiset.cons_add]
  | fails i _ _ hfree hguards hawaits =>
    refine .inr (.inl ⟨?_, hfree⟩)
    rw [hguards, hawaits, List.map_cons, ← Multiset.cons_coe, Multiset.add_cons]
  | ends _ hfree hguards hawaits =>
    refine .inr (.inl ⟨?_, hfree⟩)
    rw [hguards, hawaits, Multiset.cons_add]
  | stays _ _ hstopped _ hguards hawaits =>
    refine .inr (.inr ⟨?_, hstopped⟩)
    rw [hguards, hawaits]

theorem Handover.mem_awaits (hmem : (k, i) ∈ x'.awaits) :
    (k, i) ∈ x.awaits ∨ k = e ∧ r'.initiator = i := by
  cases h with
  | begins j _ _ _ _ hi _ hawaits =>
    rw [hawaits] at hmem
    rcases List.mem_cons.mp hmem with hnew | hold
    · cases hnew
      exact .inr ⟨rfl, hi⟩
    · exact .inl hold
  | stops _ _ _ _ _ _ _ _ hawaits | ends _ _ _ hawaits | stays _ _ _ _ _ hawaits =>
    exact .inl (hawaits ▸ hmem)
  | arrives _ _ _ _ _ _ _ hawaits | fails _ _ _ _ _ hawaits =>
    exact .inl (hawaits ▸ List.mem_cons_of_mem _ hmem)

theorem Handover.initiator (hr : r.worldStopped = true) (hr' : r'.worldStopped = true) :
    r'.initiator = r.initiator := by
  cases h with
  | begins _ _ _ hfree | stops _ _ _ _ hfree =>
    exact absurd hr (by rw [hfree]; exact Bool.false_ne_true)
  | arrives _ _ _ _ _ hi => exact hi
  | fails _ _ _ hfree | ends _ hfree => exact absurd hr' (by rw [hfree]; exact Bool.false_ne_true)
  | stays _ _ _ hi => exact hi

end Station

namespace Yard

variable {F : Prop} {y : Yard} {t e : Nat} {x x' : Station} {rest : List Task} {op : Operation}
  {p : Progress} {r r' : Registry}

/-- A world as registries see it after a section of a registry. -/
def operate (y : Yard) (t e : Nat) (x' : Station) (r' : Registry) : Yard :=
  (y.modifyRegistry e fun _ => r').modify t fun _ => x'

theorem getElem?_operate (h : (y.operate t e x' r').registries[k]? = some q) :
    k = e ∧ q = r' ∨ k ≠ e ∧ y.registries[k]? = some q := by
  simp only [operate, modify, modifyRegistry, Array.getElem?_modify] at h
  split at h
  · next hek =>
      obtain ⟨_, _, hq⟩ := Option.map_eq_some_iff.mp h
      exact .inl ⟨hek.symm, hq.symm⟩
  · next hek => exact .inr ⟨Ne.symm hek, h⟩

theorem getElem?_operate_self (hr : y.registries[e]? = some r) :
    (y.operate t e x' r').registries[e]? = some r' := by
  simp [operate, modify, modifyRegistry, Array.getElem?_modify, hr]

theorem getElem?_operate_of_ne (hk : k ≠ e) :
    (y.operate t e x' r').registries[k]? = y.registries[k]? := by
  simp [operate, modify, modifyRegistry, Array.getElem?_modify, Ne.symm hk]

theorem isStopped_operate (hr : y.registries[e]? = some r) (k : Nat) :
    (y.operate t e x' r').isStopped k = if k = e then r'.worldStopped else y.isStopped k := by
  unfold isStopped
  by_cases hk : k = e
  · subst hk
    rw [getElem?_operate_self hr, if_pos rfl]
    rfl
  · rw [getElem?_operate_of_ne hk, if_neg hk]

theorem isStopped_eq (hr : y.registries[e]? = some r) : y.isStopped e = r.worldStopped := by
  unfold isStopped
  rw [hr]
  rfl

namespace Lawful

variable {u : Nat} {z : Station} (h : y.Lawful F) (hx : y.stations[t]? = some x)
  (hr : y.registries[e]? = some r)

include h hx hr

theorem counted_operate (hover : Station.Handover e op p r r' x x') (k : Nat) :
    (y.operate t e x' r').tokens.count k = if (y.operate t e x' r').isStopped k then 1 else 0 := by
  obtain ⟨others, hbefore, hafter⟩ := exists_total_modify hx (fun _ => x') Station.tokens
  have hcount : x.tokens.count k + others.count k = if y.isStopped k then 1 else 0 := by
    rw [← h.counted k, tokens, hbefore, Multiset.count_add]
  have hcount' : (y.operate t e x' r').tokens.count k = x'.tokens.count k + others.count k := by
    unfold tokens operate modify modifyRegistry
    dsimp only
    rw [hafter, Multiset.count_add]
  rw [hcount', isStopped_operate hr]
  by_cases hk : k = e
  · subst hk
    rw [isStopped_eq hr] at hcount
    rw [if_pos rfl]
    rcases hover.tokens with ⟨hx', hfree, hstopped⟩ | ⟨hx', hfree⟩ | ⟨hx', hsame⟩
    · rw [hfree, if_neg Bool.false_ne_true] at hcount
      rw [hx', Multiset.count_cons_self, hstopped, if_pos rfl]
      omega
    · rw [hx', Multiset.count_cons_self] at hcount
      rw [hfree, if_neg Bool.false_ne_true]
      split at hcount
      · omega
      · omega
    · rw [hx', hsame]
      exact hcount
  · rw [if_neg hk, ← hcount]
    rcases hover.tokens with ⟨hx', -⟩ | ⟨hx', -⟩ | ⟨hx', -⟩
    · rw [hx', Multiset.count_cons_of_ne hk]
    · rw [hx', Multiset.count_cons_of_ne hk]
    · rw [hx']

/-- Where a pause is handed over, whoever waits for threads is still the initiator. -/
theorem initiated_operate (hover : Station.Handover e op p r r' x x')
    (hz : (y.operate t e x' r').stations[u]? = some z) (hmem : (k, i) ∈ z.awaits)
    (hq : (y.operate t e x' r').registries[k]? = some q) : q.initiator = i := by
  have hback : y.stations[u]? = some z ∨ u = t ∧ z = x' := by
    rcases getElem?_modify hz with hnew | ⟨-, hold⟩
    · exact .inr hnew
    · exact .inl hold
  -- whoever waited before, or the initiator of a new pause
  have hwaits : (∃ z₀, y.stations[u]? = some z₀ ∧ (k, i) ∈ z₀.awaits) ∨
      k = e ∧ r'.initiator = i := by
    rcases hback with hold | ⟨rfl, rfl⟩
    · exact .inl ⟨z, hold, hmem⟩
    · rcases hover.mem_awaits hmem with hold | hnew
      · exact .inl ⟨x, hx, hold⟩
      · exact .inr hnew
  rcases getElem?_operate hq with ⟨rfl, rfl⟩ | ⟨hk, hq⟩
  · rcases hwaits with ⟨z₀, hz₀, hmem₀⟩ | ⟨-, hi⟩
    · obtain ⟨r₀, hr₀, hstopped⟩ := h.exists_of_mem_tokens (mem_tokens_of_awaits hz₀ hmem₀)
      rw [hr] at hr₀
      cases hr₀
      have hcount := h.counted_operate hx hr hover k
      have hpos : 0 < (y.operate t k x' q).tokens.count k :=
        Multiset.count_pos.mpr (mem_tokens_of_awaits hz hmem)
      have hstopped' : q.worldStopped = true := by
        rw [hcount, isStopped_operate hr, if_pos rfl] at hpos
        split at hpos
        · next hq' => exact hq'
        · exact (Nat.lt_irrefl 0 hpos).elim
      rw [hover.initiator hstopped hstopped']
      exact h.initiated u z₀ k i r hz₀ hmem₀ hr
    · exact hi
  · rcases hwaits with ⟨z₀, hz₀, hmem₀⟩ | ⟨rfl, -⟩
    · exact h.initiated u z₀ k i q hz₀ hmem₀ hq
    · exact (hk rfl).elim

omit h hx hr

/-- The number that a thread keeps after a section: its own, or the one that it was just given. -/
theorem held_operate (hx : x.tasks = .registry e op :: rest)
    (hexpects : expects rest = (Task.registry e op).gives)
    (hsec : r.Section t op r' p) : (x.advance e rest p).held = x.held ∨
    (∃ name, op = .attach name) ∧ (x.advance e rest p).held = some ⟨e, r.nextId⟩ := by
  have hidle : expects x.tasks = none := by rw [hx]; rfl
  rw [Station.held_of_idle hidle]
  by_cases hattach : ∃ name, op = .attach name
  · obtain ⟨name, rfl⟩ := hattach
    cases hsec with
    | misses hop => rcases hop with hop | hop <;> cases hop
    | attaches =>
      refine .inr ⟨⟨name, rfl⟩, ?_⟩
      unfold Station.held Station.advance
      dsimp only
      rw [hexpects]
      rfl
  · exact .inl (Station.held_advance hexpects fun name hname => hattach ⟨name, hname⟩)

theorem expects_of_detach {id : ThreadId}
    (hexpects : expects rest = (Task.registry e (.detach id)).gives)
    (hsec : r.Section t (.detach id) r' p) : expects (x.advance e rest p).tasks = some .exit := by
  cases hsec with
  | misses hop => rcases hop with hop | hop <;> cases hop
  | detaches => exact hexpects

variable (htasks : x.tasks = .registry e op :: rest) (hsec : r.Section t op r' p)

include h hx hr htasks hsec

theorem issued_operate (hz : (y.operate t e (x.advance e rest p) r').stations[u]? = some z)
    (hb : z.held = some b) :
    ∃ q, (y.operate t e (x.advance e rest p) r').registries[b.engine]? = some q ∧ b.id < q.nextId ∧
    (expects z.tasks ≠ some .exit → b.id ∈ q.ids) := by
  have horderly := h.orderly t x hx
  rw [htasks] at horderly
  obtain ⟨hsuits, hexpects, -⟩ := horderly
  have hidle : expects x.tasks = none := by rw [htasks]; rfl
  -- a number that was known stays known unless its own thread gives it back
  have old : ∀ {v : Nat} {z₀}, y.stations[v]? = some z₀ → z₀.held = some b →
      (expects z.tasks ≠ some .exit →
        expects z₀.tasks ≠ some .exit ∧ (b.engine = e → op ≠ .detach b.id)) →
      ∃ q, (y.operate t e (x.advance e rest p) r').registries[b.engine]? = some q ∧
      b.id < q.nextId ∧ (expects z.tasks ≠ some .exit → b.id ∈ q.ids) := by
    intro v z₀ hz₀ hb₀ hexit
    obtain ⟨r₀, hr₀, hlt, hmem⟩ := h.issued v z₀ b hz₀ hb₀
    by_cases hbe : b.engine = e
    · rw [hbe] at hr₀ ⊢
      rw [hr] at hr₀
      cases hr₀
      refine ⟨r', getElem?_operate_self hr, Nat.lt_of_lt_of_le hlt hsec.nextId_le, fun hne => ?_⟩
      exact hsec.mem_ids (hmem (hexit hne).1) ((hexit hne).2 hbe)
    · exact ⟨r₀, by rwa [getElem?_operate_of_ne hbe], hlt, fun hne => hmem (hexit hne).1⟩
  rcases getElem?_modify hz with ⟨rfl, rfl⟩ | ⟨hut, hz₀⟩
  · rcases held_operate htasks hexpects hsec with hsame | ⟨⟨name, rfl⟩, hnew⟩
    · refine old hx (hsame ▸ hb) fun hne => ⟨by simp [hidle], fun hbe hop => hne ?_⟩
      subst hop
      exact expects_of_detach hexpects hsec
    · rw [hnew] at hb
      cases hb
      rcases hsec.ids with ⟨_, -, hids, hnext, -⟩ | ⟨_, hop, -⟩ | ⟨hno, -⟩
      · refine ⟨r', getElem?_operate_self hr, ?_, fun _ => ?_⟩
        · rw [hnext]
          exact Nat.lt_succ_self _
        · rw [hids]
          exact List.mem_append_right _ (List.mem_singleton.mpr rfl)
      · cases hop
      · exact (hno name rfl).elim
  · refine old hz₀ hb fun hne => ⟨hne, fun hbe hop => hut ?_⟩
    subst hop hbe
    have hheld : x.held = some b := (Station.held_of_idle hidle).trans hsuits
    exact h.unique u t z x b hz₀ hx hb hheld

theorem unique_operate (hz : (y.operate t e (x.advance e rest p) r').stations[u]? = some z)
    (hz' : (y.operate t e (x.advance e rest p) r').stations[v]? = some z') (hb : z.held = some b)
    (hb' : z'.held = some b) : u = v := by
  have horderly := h.orderly t x hx
  rw [htasks] at horderly
  -- somebody kept the number before, or it is new
  have old : ∀ {u z}, (y.operate t e (x.advance e rest p) r').stations[u]? = some z →
      z.held = some b → (∃ z₀, y.stations[u]? = some z₀ ∧ z₀.held = some b) ∨
      u = t ∧ b = ⟨e, r.nextId⟩ := by
    intro u z hz hb
    rcases getElem?_modify hz with ⟨rfl, rfl⟩ | ⟨-, hz₀⟩
    · rcases held_operate htasks horderly.2.1 hsec with hsame | ⟨-, hnew⟩
      · exact .inl ⟨x, hx, hsame ▸ hb⟩
      · rw [hnew] at hb
        cases hb
        exact .inr ⟨rfl, rfl⟩
    · exact .inl ⟨z, hz₀, hb⟩
  have fresh : ∀ {u : Nat} {z₀}, y.stations[u]? = some z₀ → z₀.held = some b →
      b ≠ ⟨e, r.nextId⟩ := by
    rintro u z₀ hz₀ hb₀ rfl
    obtain ⟨r₀, hr₀, hlt, -⟩ := h.issued u z₀ _ hz₀ hb₀
    rw [hr] at hr₀
    cases hr₀
    exact Nat.lt_irrefl _ hlt
  rcases old hz hb with ⟨z₀, hz₀, hb₀⟩ | ⟨rfl, hnew⟩
  · rcases old hz' hb' with ⟨z₁, hz₁, hb₁⟩ | ⟨-, hnew⟩
    · exact h.unique u v z₀ z₁ b hz₀ hz₁ hb₀ hb₁
    · exact (fresh hz₀ hb₀ hnew).elim
  · rcases old hz' hb' with ⟨z₁, hz₁, hb₁⟩ | ⟨rfl, -⟩
    · exact (fresh hz₁ hb₁ hnew).elim
    · rfl

theorem operate : (y.operate t e (x.advance e rest p) r').Lawful F := by
  have horderly := h.orderly t x hx
  rw [htasks] at horderly
  obtain ⟨hsuits, hexpects, hrest⟩ := horderly
  have hover := Station.handover htasks hexpects hsec
  constructor
  case soundly =>
    intro hF k q hq
    rcases getElem?_operate hq with ⟨rfl, rfl⟩ | ⟨-, hq⟩
    · refine (h.soundly hF k r hr).step (fun id hop => ?_) hsec
      subst hop
      have hidle : expects x.tasks = none := by rw [htasks]; rfl
      obtain ⟨b, hb, hbe, rfl⟩ := Badge.eq_of_idIn (hsuits.2 hF).symm
      obtain ⟨r₀, hr₀, hlt, -⟩ := h.issued t x b hx ((Station.held_of_idle hidle).trans hb)
      rw [hbe, hr] at hr₀
      cases hr₀
      exact hlt
    · exact h.soundly hF k q hq
  case orderly =>
    intro u z hz
    have hsize : (y.operate t e (x.advance e rest p) r').registries.size = y.registries.size :=
      Array.size_modify
    rw [hsize]
    rcases getElem?_modify hz with ⟨rfl, rfl⟩ | ⟨-, hz⟩
    · exact Station.orderly_advance ⟨hsuits, hexpects, hrest⟩ hsec
    · exact h.orderly u z hz
  case issued => exact fun u z b => h.issued_operate hx hr htasks hsec
  case unique => exact fun u v z z' b => h.unique_operate hx hr htasks hsec
  case counted => exact h.counted_operate hx hr hover
  case initiated => exact fun u z k i q => h.initiated_operate hx hr hover

end Lawful

end Yard

end ManagedHeap
