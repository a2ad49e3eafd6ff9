import ManagedHeap.Numeral.Literal

/-!
# Settings

The thirteen settings of a runtime, their defaults, and the conditions under which a runtime accepts
them.
-/

namespace ManagedHeap

/-- What a runtime is configured with. -/
structure Settings where
  heapCapacity : Nat
  /-- Fill level, in single precision, from which every soft reference is cleared. -/
  softRefClearThreshold : Numeral.Value
  /-- Collections after which an unused soft reference is cleared; zero for never. -/
  softRefLruCycles : Nat
  finalizerEnabled : Bool
  finalizerThreadName : String
  finalizerLowPriority : Bool
  runFinalizersOnExit : Bool
  shutdownTimeoutMs : Nat
  safepointTimeoutMs : Option Nat
  verbose : Bool
  jsonLog : Bool
  logFile : Option String
  statsEnabled : Bool
  deriving DecidableEq, Repr

/-- Why settings are not accepted. -/
inductive SettingsError where
  | invalidHeapCapacity
  | invalidSoftRefThreshold
  | invalidThreadName
  | shutdownTimeoutZero
  | safepointTimeoutZero
  deriving DecidableEq, Repr

namespace Settings

/-- The smallest heap that a runtime accepts. -/
def minHeapCapacity : Nat := 4096

/-- The settings used where nothing else is said. -/
def standard : Settings where
  heapCapacity := 64 * 1024 * 1024
  softRefClearThreshold := Numeral.Format.single.round false 9 10
  softRefLruCycles := 0
  finalizerEnabled := true
  finalizerThreadName := "hgc-finalizer"
  finalizerLowPriority := true
  runFinalizersOnExit := false
  shutdownTimeoutMs := 5000
  safepointTimeoutMs := none
  verbose := false
  jsonLog := false
  logFile := none
  statsEnabled := true

/-- The first condition that the settings miss, if any. -/
def fault? (s : Settings) : Option SettingsError :=
  let zero := Numeral.Format.single.round false 0 1
  let one := Numeral.Format.single.round false 1 1
  if s.heapCapacity < minHeapCapacity then some .invalidHeapCapacity
  else if !(zero.le s.softRefClearThreshold && s.softRefClearThreshold.le one) then
    some .invalidSoftRefThreshold
  else if s.finalizerThreadName.isEmpty ||
    s.finalizerThreadName.toList.any (· = '\x00') then some .invalidThreadName
  else if s.shutdownTimeoutMs = 0 then some .shutdownTimeoutZero
  else if s.safepointTimeoutMs = some 0 then some .safepointTimeoutZero
  else none

end Settings

namespace SettingsError

def name : SettingsError → String
  | .invalidHeapCapacity => "InvalidHeapCapacity"
  | .invalidSoftRefThreshold => "InvalidSoftRefThreshold"
  | .invalidThreadName => "InvalidThreadName"
  | .shutdownTimeoutZero => "InvalidTimeout"
  | .safepointTimeoutZero => "InvalidTimeout"

def message : SettingsError → String
  | .invalidHeapCapacity =>
      "Invalid heap capacity: heap_capacity must be at least " ++
        toString Settings.minHeapCapacity ++ " bytes"
  | .invalidSoftRefThreshold =>
      "Invalid soft reference threshold: soft_ref_clear_threshold must be between 0.0 and 1.0"
  | .invalidThreadName =>
      "Invalid thread name: finalizer_thread_name must be non-empty and contain no NUL"
  | .shutdownTimeoutZero => "Invalid timeout: shutdown_timeout_ms must be > 0"
  | .safepointTimeoutZero => "Invalid timeout: safepoint_timeout_ms must be > 0 when set"

end SettingsError

end ManagedHeap
