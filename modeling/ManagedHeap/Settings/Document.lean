import ManagedHeap.Settings.Basic
import ManagedHeap.Text.Json

/-!
# Settings in documents and in the environment

**Input.**  A JSON document, or a look-up of environment variables.

**Algorithm.**  `entries` lists the settings in their order with a reader and a writer each.  An
object gives some of them by name, an array the first few in order; what is not given keeps its
default.  A repeated known name, an unknown type or a number out of range refuses the document;
unknown names are skipped.  In the environment an unreadable number leaves the default.

**Results.**  `Settings.ofJson?`, `Settings.toJson` and `Settings.ofEnvironment`.
-/

namespace ManagedHeap
namespace Settings

open Text (Json)

section Readers

def readWord? : Json → Option Nat
  | .number l =>
      match l.number? with
      | some (.natural n) => some n
      | _ => none
  | _ => none

def readSingle? : Json → Option Numeral.Value
  | .number l => l.number?.map (·.toFormat .single)
  | _ => none

def readBool? : Json → Option Bool
  | .bool b => some b
  | _ => none

def readString? : Json → Option String
  | .string s => s
  | _ => none

def readNullable? {α : Type} (read : Json → Option α) : Json → Option (Option α)
  | .null => some none
  | x => (read x).map some

end Readers

section Entries

/-- One setting: its name in documents, its reader and its writer. -/
structure Entry where
  name : String
  read? : Json → Settings → Option Settings
  write : Settings → String

def writeBool (b : Bool) : String := if b then "true" else "false"

def entries : List Entry :=
  [ ⟨"heap_capacity", fun x s => (readWord? x).map fun v => { s with heapCapacity := v },
    fun s => toString s.heapCapacity⟩, ⟨"soft_ref_clear_threshold",
    fun x s => (readSingle? x).map fun v => { s with softRefClearThreshold := v },
    fun s => Numeral.Layout.document.write .single s.softRefClearThreshold⟩,
    ⟨"soft_ref_lru_cycles", fun x s => (readWord? x).map fun v => { s with softRefLruCycles := v },
    fun s => toString s.softRefLruCycles⟩, ⟨"finalizer_enabled",
    fun x s => (readBool? x).map fun v => { s with finalizerEnabled := v }, fun s =>
    writeBool s.finalizerEnabled⟩, ⟨"finalizer_thread_name", fun x s => (readString? x).map fun v =>
    { s with finalizerThreadName := v }, fun s => Text.quote s.finalizerThreadName⟩,
    ⟨"finalizer_low_priority", fun x s => (readBool? x).map fun v =>
    { s with finalizerLowPriority := v }, fun s => writeBool s.finalizerLowPriority⟩,
    ⟨"run_finalizers_on_exit", fun x s => (readBool? x).map fun v =>
    { s with runFinalizersOnExit := v }, fun s => writeBool s.runFinalizersOnExit⟩,
    ⟨"shutdown_timeout_ms", fun x s => (readWord? x).map fun v => { s with shutdownTimeoutMs := v },
    fun s => toString s.shutdownTimeoutMs⟩, ⟨"safepoint_timeout_ms",
    fun x s => (readNullable? readWord? x).map fun v => { s with safepointTimeoutMs := v },
    fun s => (s.safepointTimeoutMs.map toString).getD "null"⟩, ⟨"verbose", fun x s =>
    (readBool? x).map fun v => { s with verbose := v }, fun s => writeBool s.verbose⟩, ⟨"json_log",
    fun x s => (readBool? x).map fun v => { s with jsonLog := v }, fun s => writeBool s.jsonLog⟩,
    ⟨"log_file", fun x s => (readNullable? readString? x).map fun v => { s with logFile := v },
    fun s => (s.logFile.map Text.quote).getD "null"⟩, ⟨"stats_enabled", fun x s =>
    (readBool? x).map fun v => { s with statsEnabled := v }, fun s => writeBool s.statsEnabled⟩]

end Entries

section Documents

/-- Reads the members of an object; `seen` are the known names met so far. -/
def readMembers? (s : Settings) (seen : List String) : List (Option String × Json) → Option Settings
  | [] => some s
  | (none, _) :: _ => none
  | (some key, x) :: rest =>
      match entries.find? (·.name == key) with
      | none => readMembers? s seen rest
      | some entry =>
          if seen.contains key then none
          else (entry.read? x s).bind fun s => readMembers? s (key :: seen) rest

/-- Reads the items of an array against the entries in order; more items than entries are
refused. -/
def readItems? (s : Settings) : List Entry → List Json → Option Settings
  | _, [] => some s
  | [], _ :: _ => none
  | entry :: entries, x :: rest => (entry.read? x s).bind fun s => readItems? s entries rest

def ofJson? : Json → Option Settings
  | .object members => readMembers? standard [] members
  | .array items => readItems? standard entries items
  | _ => none

def parse? (text : String) : Option Settings := (Json.parse? text).bind ofJson?

/-- The document of all settings in their order. -/
def toJson (s : Settings) : String :=
  "\x7b" ++ ",".intercalate (entries.map fun e => Text.quote e.name ++ ":" ++ e.write s) ++ "\x7d"

/-- Whether writing and reading again gives the same settings; `none` when the document cannot be
read. -/
def survives? (s : Settings) : Option Bool := (parse? s.toJson).map (· == s)

end Documents

section Environment

/-- A flag is set by `1` and by `true` in any case, and cleared by any other text. -/
def flagOf (text : String) : Bool :=
  text == "1" || text.map Char.toLower == "true"

/-- The settings that environment variables give. -/
def ofEnvironment (lookup : String → Option String) : Settings :=
  let word (key : String) : Option Nat := (lookup key).bind (Numeral.natural? Numeral.wordLimit)
  { standard with
    heapCapacity := (word "HGC_HEAP_CAPACITY").getD standard.heapCapacity
    softRefClearThreshold := ((lookup "HGC_SOFT_REF_THRESHOLD").bind (Numeral.real? .single)).getD
        standard.softRefClearThreshold
    finalizerEnabled := ((lookup "HGC_FINALIZER_ENABLED").map flagOf).getD standard.finalizerEnabled
    runFinalizersOnExit :=
      ((lookup "HGC_RUN_FINALIZERS_ON_EXIT").map flagOf).getD standard.runFinalizersOnExit
    verbose := ((lookup "HGC_VERBOSE").map flagOf).getD standard.verbose
    safepointTimeoutMs :=
      match word "HGC_SAFEPOINT_TIMEOUT_MS" with
      | some ms => some ms
      | none => standard.safepointTimeoutMs }

end Environment

end Settings
end ManagedHeap
