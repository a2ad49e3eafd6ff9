import ManagedHeap.Agent
import ManagedHeap.Call

/-!
# Names

A program knows its objects, references, queues, agents and runtimes by name.  A table binds each
name once; binding it again replaces what it was bound to.
-/

namespace ManagedHeap

abbrev Table (α : Type) := List (String × α)

namespace Table

variable {α : Type}

def get? (t : Table α) (name : String) : Option α := (t.find? (·.1 == name)).map Prod.snd

def erase (t : Table α) (name : String) : Table α := t.filter (·.1 != name)

def insert (t : Table α) (name : String) (a : α) : Table α := (name, a) :: erase t name

end Table

/-- A registered agent in the hands of the program. -/
structure AgentHandle where
  engine : Nat
  id : Nat
  capabilities : Capabilities
  deriving DecidableEq, Repr

def AgentHandle.inspect (a : AgentHandle) : String :=
  Text.inspectRecord "AgentHandle" [("id", toString a.id), ("capabilities", a.capabilities.inspect)]

/-- Everything that a program has a name for. -/
structure Names where
  objects : Table Root := []
  /-- The object last bound to a name, also after the name was dropped. -/
  lastObjects : Table ObjectId := []
  references : Table Handle := []
  queues : Table Nat := []
  agents : Table AgentHandle := []
  engines : Table Nat := []
  threads : Table Nat := []
  /-- Handles that were passed across the foreign boundary. -/
  foreignObjects : Table Root := []
  foreignReferences : Table Handle := []
  foreignEngines : Table Nat := []

end ManagedHeap
