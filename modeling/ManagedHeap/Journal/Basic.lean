import ManagedHeap.Journal.Event
import ManagedHeap.Settings.Basic

/-!
# The journal

**Input.**  Events, and calls that switch the journal on and off or clear its history.

**Algorithm.**  An event logged while the journal is on first becomes a general log record.  If its
level passes the journal's own limit it is accepted: printed to the console and appended to the file
where these are configured, and kept in a history of bounded length (zero for no bound).  The first
write that fails closes the file for good.

**Results.**  `Journal.logAt` returns the journal and what came out of it.
-/

namespace ManagedHeap

/-- A general log record. -/
structure LogRecord where
  level : Level
  text : String
  deriving DecidableEq, Repr

def LogRecord.display (r : LogRecord) : String := r.level.label ++ " " ++ r.text

/-- How a journal is set up. -/
structure JournalConfig where
  level : Level := .info
  console : Bool := false
  file : Option String := none
  json : Bool := false
  timestamps : Bool := true
  /-- Events kept; zero for no bound. -/
  history : Nat := 4096
  deriving DecidableEq, Repr

def JournalConfig.ofSettings (s : Settings) : JournalConfig where
  level := if s.verbose then .debug else .info
  console := s.verbose
  file := s.logFile
  json := s.jsonLog

/-- What is behind the path of a journal file. -/
structure Disk where
  /-- Whether the path can be opened. -/
  opens : Bool
  /-- Whether writes succeed. -/
  writes : Bool
  content : String
  deriving DecidableEq, Repr

def Disk.unreachable : Disk := ⟨false, false, ""⟩

/-- A path with some content to which lines can be appended. -/
def Disk.holding (content : String) : Disk := ⟨true, true, content⟩

/-- A journal. -/
structure Journal where
  config : JournalConfig
  disk : Disk
  /-- Whether the file is open. -/
  fileOpen : Bool
  enabled : Bool
  /-- Accepted events, oldest first. -/
  events : List Event
  deriving DecidableEq, Repr

/-- The time of day in front of a line: any text without control characters. -/
structure Stamp where
  text : String
  printable : text.toList.all (32 ≤ ·.toNat) = true

/-- What stands for the time of day where it is not shown. -/
def Journal.stamp : String := "[time] "

def Stamp.hidden : Stamp := ⟨Journal.stamp, by decide⟩

/-- What a call on a journal sent out. -/
structure Emission where
  records : List LogRecord := []
  printed : List String := []
  deriving DecidableEq, Repr

namespace Journal

/-- A new journal; a file that cannot be opened is reported and left out. -/
def start (config : JournalConfig) (disk : Disk) : Journal × Emission :=
  let wanted := config.file.isSome
  (⟨config, disk, wanted && disk.opens, true, []⟩,
    { records := if wanted && !disk.opens then [⟨.warn, "cannot open GC log file"⟩] else [] })

def line (j : Journal) (s : Stamp) (e : Event) : String :=
  (if j.config.timestamps then s.text else "") ++ (if j.config.json then e.toJson else e.describe)

/-- Whether an event is accepted: printed, written and kept. -/
def accepts (j : Journal) (e : Event) : Bool := j.enabled && e.level.passes j.config.level

/-- Appends a line to the file if it is open; a failing write closes it. -/
def write (j : Journal) (text : String) : Journal × List LogRecord :=
  if !j.fileOpen then (j, [])
  else if j.disk.writes then
    ({ j with disk := { j.disk with content := j.disk.content ++ text ++ "\n" } }, [])
  else ({ j with fileOpen := false }, [⟨.warn, "GC log file write failed, disabling file output"⟩])

def keep (j : Journal) (e : Event) : Journal :=
  let older := if 0 < j.config.history ∧ j.config.history ≤ j.events.length then j.events.drop 1
      else j.events
  { j with events := older ++ [e] }

/-- Logs an event at a time of day. -/
def logAt (j : Journal) (s : Stamp) (e : Event) : Journal × Emission :=
  if !j.enabled then (j, {})
  else
    let record : LogRecord := ⟨e.level, e.describe⟩
    if !e.level.passes j.config.level then (j, { records := [record] })
    else
      let (written, failures) := j.write (j.line s e)
      (written.keep e,
        { records := record :: failures, printed := if j.config.console then [j.line s e] else [] })

/-- Logs an event without its time of day. -/
def log (j : Journal) (e : Event) : Journal × Emission := j.logAt .hidden e

def enable (j : Journal) : Journal := { j with enabled := true }

def disable (j : Journal) : Journal := { j with enabled := false }

def clear (j : Journal) : Journal := { j with events := [] }

end Journal

end ManagedHeap
