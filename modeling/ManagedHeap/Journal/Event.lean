import ManagedHeap.Numeral.Decimal
import ManagedHeap.Text.Json

/-!
# Journal events

What a collector writes down, at which level, and the two forms of an event: a line of text and a
document.  A document is laid out as `serde_json` documents its compact output: members in the order
of the fields, without white space.
-/

namespace ManagedHeap

/-- How important a record is; lower is more important. -/
inductive Level where
  | error
  | warn
  | info
  | debug
  | trace
  deriving DecidableEq, Repr

namespace Level

def rank : Level → Nat
  | .error => 0
  | .warn => 1
  | .info => 2
  | .debug => 3
  | .trace => 4

def name : Level → String
  | .error => "Error"
  | .warn => "Warn"
  | .info => "Info"
  | .debug => "Debug"
  | .trace => "Trace"

def label : Level → String
  | .error => "ERROR"
  | .warn => "WARN"
  | .info => "INFO"
  | .debug => "DEBUG"
  | .trace => "TRACE"

/-- Whether a record of this level passes a limit. -/
def passes (l limit : Level) : Bool := l.rank ≤ limit.rank

end Level

/-- Something a runtime writes down. -/
inductive Event where
  | cycleStart (cycle : Nat) (reason : String)
  | safepointReached (cycle threads waitUs : Nat)
  | cycleEnd (cycle : Nat) (durationMs : Numeral.Value) (reclaimedObjects reclaimedBytes : Nat)
  | heapStats (usedBytes capacityBytes : Nat) (utilization : Numeral.Value)
  | allocationFailure (size heapUsed : Nat)
  | referenceStats (cycle softCleared weakCleared phantomCleared enqueued : Nat)
  | finalizersScheduled (cycle count : Nat)
  | finalizerPanicked (object message : String)
  | threadSuspended (thread : String) (suspendCount : Nat)
  | threadResumed (thread : String) (suspendCount : Nat)
  deriving DecidableEq, Repr

namespace Event

def level : Event → Level
  | .allocationFailure .. => .error
  | .finalizerPanicked .. => .warn
  | .cycleStart .. => .info
  | .cycleEnd .. => .info
  | .heapStats .. => .info
  | .referenceStats .. => .debug
  | .finalizersScheduled .. => .debug
  | .threadSuspended .. => .debug
  | .threadResumed .. => .debug
  | .safepointReached .. => .trace

section Texts

/-- A fraction as a percentage with one place. -/
def percent (v : Numeral.Value) : String :=
  Numeral.fixed 1 (v.mul .double (Numeral.Format.double.ofNat 100))

def describe : Event → String
  | .cycleStart cycle reason => s!"[GC] Cycle {cycle} started (reason: {reason})"
  | .safepointReached cycle threads waitUs =>
      s!"[GC] Cycle {cycle}: {threads} threads at safepoint after {waitUs} us"
  | .cycleEnd cycle durationMs objects bytes =>
      let duration := Numeral.fixed 2 durationMs
      s!"[GC] Cycle {cycle} completed ({duration}ms, reclaimed {objects} objects / {bytes} bytes)"
  | .heapStats used capacity utilization =>
      let filled := percent utilization
      s!"[GC] Heap: {used}/{capacity} bytes ({filled}% utilized)"
  | .allocationFailure size heapUsed =>
      s!"[GC] Allocation failure: {size} bytes (heap used: {heapUsed})"
  | .referenceStats cycle soft weak phantom enqueued =>
      s!"[GC] Cycle {cycle}: references cleared {soft} soft, {weak} weak, {phantom} phantom; {enqueued} enqueued"
  | .finalizersScheduled cycle count => s!"[GC] Cycle {cycle}: {count} finalizers scheduled"
  | .finalizerPanicked object message => s!"[GC] Finalizer for {object} panicked: {message}"
  | .threadSuspended thread count => s!"[GC] {thread} suspended (count {count})"
  | .threadResumed thread count => s!"[GC] {thread} resumed (count {count})"

def natMember (key : String) (n : Nat) : String := Text.quote key ++ ":" ++ toString n

def textMember (key : String) (s : String) : String := Text.quote key ++ ":" ++ Text.quote s

def realMember (key : String) (v : Numeral.Value) : String :=
  Text.quote key ++ ":" ++ Numeral.Layout.document.write .double v

/-- The members of the document of an event, in order. -/
def members : Event → List String
  | .cycleStart cycle reason =>
      [textMember "type" "cycle_start", natMember "cycle" cycle, textMember "reason" reason]
  | .safepointReached cycle threads waitUs =>
      [textMember "type" "safepoint_reached", natMember "cycle" cycle, natMember "threads" threads,
        natMember "wait_us" waitUs]
  | .cycleEnd cycle durationMs objects bytes =>
      [textMember "type" "cycle_end", natMember "cycle" cycle, realMember "duration_ms" durationMs,
        natMember "reclaimed_objects" objects, natMember "reclaimed_bytes" bytes]
  | .heapStats used capacity utilization =>
      [textMember "type" "heap_stats", natMember "used_bytes" used,
        natMember "capacity_bytes" capacity, realMember "utilization" utilization]
  | .allocationFailure size heapUsed =>
      [textMember "type" "allocation_failure", natMember "size" size,
        natMember "heap_used" heapUsed]
  | .referenceStats cycle soft weak phantom enqueued =>
      [textMember "type" "reference_stats", natMember "cycle" cycle, natMember "soft_cleared" soft,
        natMember "weak_cleared" weak, natMember "phantom_cleared" phantom,
        natMember "enqueued" enqueued]
  | .finalizersScheduled cycle count =>
      [textMember "type" "finalizers_scheduled", natMember "cycle" cycle, natMember "count" count]
  | .finalizerPanicked object message =>
      [textMember "type" "finalizer_panicked", textMember "object" object,
        textMember "message" message]
  | .threadSuspended thread count =>
      [textMember "type" "thread_suspended", textMember "thread" thread,
        natMember "suspend_count" count]
  | .threadResumed thread count =>
      [textMember "type" "thread_resumed", textMember "thread" thread,
        natMember "suspend_count" count]

def toJson (e : Event) : String := "\x7b" ++ ",".intercalate e.members ++ "\x7d"

end Texts

end Event

end ManagedHeap
