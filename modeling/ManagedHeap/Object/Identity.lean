import ManagedHeap.Text.Inspect

/-!
# Names of objects and threads

An object is named by the index of its slot and the generation of that slot at the time it was
stored; a thread by the number it got when it attached.
-/

namespace ManagedHeap

/-- Name of an object: slot index and slot generation. -/
structure ObjectId where
  index : Nat
  generation : Nat
  deriving DecidableEq, Repr, Inhabited

namespace ObjectId

def display (id : ObjectId) : String :=
  "obj#" ++ toString id.index ++ "." ++ toString id.generation

def inspect (id : ObjectId) : String :=
  Text.inspectRecord "ObjectId" [("index", toString id.index),
    ("generation", toString id.generation)]

end ObjectId

/-- Number of an attached thread, counted from one in each registry. -/
abbrev ThreadId := Nat

namespace ThreadId

def display (t : ThreadId) : String := "thread-" ++ toString t

def inspect (t : ThreadId) : String := "ThreadId(" ++ toString t ++ ")"

end ThreadId

end ManagedHeap
