import ManagedHeap.Object.Identity

/-!
# Errors

The causes for which a call is refused, their messages, and which of them a caller can recover from.
-/

namespace ManagedHeap

/-- Why a call was refused. -/
inductive Error where
  | outOfMemory (requested available : Nat)
  | invalidObject (id : ObjectId)
  | boundsCheckFailed (index length : Nat)
  | configuration (text : String)
  | invalidState (expected actual : String)
  | threadNotFound (id : ThreadId)
  | threadAlreadyAttached (id : ThreadId)
  | threadSpawn (text : String)
  | interrupted
  | timeout (text : String)
  | missingCapability (text : String)
  | shutDown
  | internal (text : String)
  deriving DecidableEq, Repr

namespace Error

def name : Error → String
  | .outOfMemory _ _ => "OutOfMemory"
  | .invalidObject _ => "InvalidObject"
  | .boundsCheckFailed _ _ => "BoundsCheckFailed"
  | .configuration _ => "Configuration"
  | .invalidState _ _ => "InvalidState"
  | .threadNotFound _ => "ThreadNotFound"
  | .threadAlreadyAttached _ => "ThreadAlreadyAttached"
  | .threadSpawn _ => "ThreadSpawn"
  | .interrupted => "Interrupted"
  | .timeout _ => "Timeout"
  | .missingCapability _ => "MissingCapability"
  | .shutDown => "ShutDown"
  | .internal _ => "Internal"

def message : Error → String
  | .outOfMemory requested available =>
      "Out of memory: requested " ++ toString requested ++ " bytes, available " ++
        toString available ++ " bytes"
  | .invalidObject id => "Invalid object handle: " ++ id.display
  | .boundsCheckFailed index length =>
      "Bounds check failed: index " ++ toString index ++ " out of bounds for length " ++
        toString length
  | .configuration text => "Configuration error: " ++ text
  | .invalidState expected actual => "Invalid state: expected " ++ expected ++ ", got " ++ actual
  | .threadNotFound id => "Thread not found: " ++ ThreadId.display id
  | .threadAlreadyAttached id => "Current thread is already attached as " ++ ThreadId.display id
  | .threadSpawn text => "Failed to spawn thread: " ++ text
  | .interrupted => "Wait interrupted"
  | .timeout text => "Operation timeout: " ++ text
  | .missingCapability text => "Missing capability: " ++ text
  | .shutDown => "Runtime has been shut down"
  | .internal text => "Internal error: " ++ text

/-- Diagnostic form: the name of the cause with its data. -/
def inspect (e : Error) : String :=
  match e with
  | .outOfMemory requested available =>
      Text.inspectRecord e.name [("requested", toString requested),
        ("available", toString available)]
  | .invalidObject id => Text.inspectRecord e.name [("id", id.inspect)]
  | .boundsCheckFailed index length =>
      Text.inspectRecord e.name [("index", toString index), ("length", toString length)]
  | .invalidState expected actual =>
      Text.inspectRecord e.name
        [("expected", Text.inspectString expected), ("actual", Text.inspectString actual)]
  | .threadNotFound id => e.name ++ "(" ++ ThreadId.inspect id ++ ")"
  | .threadAlreadyAttached id => e.name ++ "(" ++ ThreadId.inspect id ++ ")"
  | .configuration text => e.name ++ "(" ++ Text.inspectString text ++ ")"
  | .threadSpawn text => e.name ++ "(" ++ Text.inspectString text ++ ")"
  | .timeout text => e.name ++ "(" ++ Text.inspectString text ++ ")"
  | .missingCapability text => e.name ++ "(" ++ Text.inspectString text ++ ")"
  | .internal text => e.name ++ "(" ++ Text.inspectString text ++ ")"
  | .interrupted => e.name
  | .shutDown => e.name

def isRecoverable : Error → Bool
  | .outOfMemory _ _ => true
  | .timeout _ => true
  | .interrupted => true
  | _ => false

/-- Whether the error can only come from a mistake in the library itself. -/
def isBug : Error → Bool
  | .internal _ => true
  | _ => false

end Error

end ManagedHeap
