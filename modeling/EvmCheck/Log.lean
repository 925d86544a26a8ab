import EvmCheck.Keccak
import EvmCheck.Rejection

/-!
# The log

Each thing worth a log record is an `Event`; its level and its text are
functions of the event.  A run of the program shows the events up to the level
that the verbosity on the command line selects.
-/

namespace EvmCheck

/-- Levels of log records, the most urgent first. -/
inductive Level
  | error
  | warn
  | info
  | debug
  | trace
  deriving DecidableEq, Repr

namespace Level

/-- The name of a level, as records show it. -/
def name : Level → String
  | error => "ERROR"
  | warn => "WARN"
  | info => "INFO"
  | debug => "DEBUG"
  | trace => "TRACE"

/-- The verbosity that selects a level. -/
def verbosity : Level → Nat
  | error => 0
  | warn => 1
  | info => 2
  | debug => 3
  | trace => 4

/-- The level that a verbosity selects; there is none above four. -/
def ofVerbosity? : Nat → Option Level
  | 0 => some error
  | 1 => some warn
  | 2 => some info
  | 3 => some debug
  | 4 => some trace
  | _ => none

/-- Whether records of level `l` are shown when `limit` is selected. -/
def shownAt (l limit : Level) : Bool :=
  l.verbosity ≤ limit.verbosity

end Level

/-- Something that is logged. -/
inductive Event
  /-- The log has been set up to show records up to a level. -/
  | configured (limit : Level)
  /-- A relative jump has been resolved to a position in the code. -/
  | jumpResolved (offset target : Nat)
  /-- Code has been accepted. -/
  | accepted (length jumpdests : Nat)
  /-- Code has been rejected. -/
  | rejected (length : Nat) (cause : Rejection)
  /-- The cache already held the outcome for a digest. -/
  | cacheHit (digest : Digest)
  /-- The cache dropped the outcome for a digest. -/
  | cacheEvicted (digest : Digest)
  deriving DecidableEq

namespace Event

/-- The level of an event. -/
def level : Event → Level
  | configured _ => .trace
  | jumpResolved _ _ => .trace
  | accepted _ _ => .debug
  | rejected _ _ => .debug
  | cacheHit _ => .trace
  | cacheEvicted _ => .trace

/-- The text of the record of an event. -/
def message : Event → String
  | configured limit => "Logger verbosity " ++ limit.name
  | jumpResolved offset target =>
      "relative jump at " ++ Rejection.offsetText offset ++ " targets " ++
        Rejection.offsetText target
  | accepted length jumpdests =>
      "accepted " ++ Text.decimal length ++ " bytes of code with " ++
        Text.decimal jumpdests ++ " jump destinations"
  | rejected length cause =>
      "rejected " ++ Text.decimal length ++ " bytes of code: " ++ cause.message
  | cacheHit digest => "jumpdest cache hit for " ++ digest.text
  | cacheEvicted digest => "jumpdest cache evicted " ++ digest.text

end Event

/-- The events that are shown when `limit` is selected, in order. -/
def shown (limit : Level) (events : List Event) : List Event :=
  events.filter (fun e => e.level.shownAt limit)

end EvmCheck
