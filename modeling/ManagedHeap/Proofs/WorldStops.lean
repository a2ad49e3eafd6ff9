import ManagedHeap.Proofs.ThreadActs

/-!
# Who keeps the world standing still

**Input.**  A world between two steps, or in the middle of one.

**Algorithm.**  A pause of an engine has one keeper at a time: a task that waits for the threads,
the value of a call that a later task of the same thread takes, a stretch of a program, or the task
that ends the pause.  The number under which a thread is attached has one keeper as well.  A world
is looked at as far as registries and keepers go.

**Results.**  `World.yard`, which is a part of what a crew shows.
-/

namespace ManagedHeap

/-- The number of a thread in an engine. -/
structure Badge where
  engine : Nat
  id : ThreadId
  deriving DecidableEq

/-- A thread as registries see it. -/
structure Station where
  badge : Option Badge
  /-- The engines whose world a stretch of the program keeps standing still, the innermost first. -/
  worlds : List Nat
  tasks : List Task
  reply : Reply

/-- A world as registries see it. -/
structure Yard where
  registries : Array Registry
  stations : Array Station

/-- The number that an attachment gives a thread. -/
def Attachment.badge (a : Attachment) : Badge := ⟨a.engine, a.id⟩

def Thread.station (x : Thread) : Station where
  badge := x.attachment.map Attachment.badge
  worlds := x.scopes.filterMap Scope.world?
  tasks := x.tasks
  reply := x.reply

/-- The number of a badge in an engine, if it is one of that engine. -/
def Badge.idIn (badge : Option Badge) (e : Nat) : Option ThreadId :=
  match badge with
  | some b => if b.engine = e then some b.id else none
  | none => none

namespace Yard

def modify (y : Yard) (t : Nat) (f : Station → Station) : Yard :=
  { y with stations := y.stations.modify t f }

def modifyRegistry (y : Yard) (e : Nat) (f : Registry → Registry) : Yard :=
  { y with registries := y.registries.modify e f }

end Yard

def World.yard (w : World) : Yard where
  registries := w.engines.map (·.registry)
  stations := w.threads.map Thread.station

namespace Actor

def badge (x : Actor) : Option Badge := x.attachment.map Attachment.badge

def station (x : Actor) : Station := ⟨x.badge, x.worlds, x.tasks, x.reply⟩

variable {x : Actor}

theorem badge_of_attachment {a : Attachment} (ha : x.attachment = some a) :
    x.badge = some ⟨a.engine, a.id⟩ := by
  rw [badge, ha]
  rfl

@[simp]
theorem badge_setRegion {inside : Bool} : (x.setRegion inside).badge = x.badge := by
  unfold badge setRegion
  cases x.attachment <;> rfl

theorem station_setRegion {inside : Bool} : (x.setRegion inside).station = x.station := by
  rw [station, badge_setRegion]
  rfl

theorem idIn_badge (x : Actor) (e : Nat) : Badge.idIn x.badge e = x.idIn e := by
  unfold Badge.idIn badge idIn
  cases x.attachment <;> rfl

end Actor

namespace Crew

variable {c : Crew} {t : Nat} {x : Actor}

def yard (c : Crew) : Yard := ⟨c.registries, c.actors.map Actor.station⟩

theorem stations_yard (hx : c.actors[t]? = some x) : c.yard.stations[t]? = some x.station := by
  rw [yard, Array.getElem?_map, hx]
  rfl

theorem yard_modify {f : Actor → Actor} {x' : Station} (hx : c.actors[t]? = some x)
    (h : (f x).station = x') : (c.modify t f).yard = c.yard.modify t fun _ => x' := by
  unfold yard modify Yard.modify
  congr 1
  apply Array.ext_getElem?
  intro j
  simp only [Array.getElem?_map, Array.getElem?_modify]
  split
  · next hj =>
      subst hj
      rw [hx]
      simp [h]
  · rfl

end Crew

namespace World

variable {w : World} {t e : Nat} {x : Thread}

theorem yard_crew : w.crew.yard = w.yard := by
  unfold Crew.yard crew yard
  rw [Array.map_map]
  rfl

theorem getElem?_stations (j : Nat) : w.yard.stations[j]? = (w.threads[j]?).map Thread.station :=
  Array.getElem?_map

theorem getElem?_registries (j : Nat) : w.yard.registries[j]? = (w.engines[j]?).map (·.registry) :=
  Array.getElem?_map

theorem size_registries : w.yard.registries.size = w.engines.size := Array.size_map

theorem station_of_thread (hx : w.threads[t]? = some x) : w.yard.stations[t]? = some x.station := by
  rw [getElem?_stations, hx]
  rfl

theorem currentId_eq (hx : w.threads[t]? = some x) :
    w.currentId t e = Badge.idIn x.station.badge e := by
  unfold currentId attachmentOf Badge.idIn Thread.station
  rw [hx, Option.bind_some]
  cases x.attachment <;> rfl

end World

end ManagedHeap
