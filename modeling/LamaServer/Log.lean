import LamaServer.Lib.RingBuffer
import LamaServer.Lib.Transition

/-!
# The log

`common_log`: callers write entries into a ring under a mutex, and a worker thread takes them out
and prints them. Each operation that holds the mutex is one action, and `pause` is two: the push of
the end marker, and the join that returns when the worker has taken it. `printed` is what the worker
has printed, and `added` what callers have logged while the log was running.
-/

namespace LamaServer

inductive GgmlLogLevel where
  | none
  | debug
  | info
  | warn
  | error
  | cont
  deriving DecidableEq, Repr

/-- `common_log_entry`. -/
structure LogEntry where
  level : GgmlLogLevel := .none
  withPrefix : Bool := false
  timestamp : Int := 0
  msg : List UInt8
  isEnd : Bool := false
  deriving DecidableEq

/-- What `print` makes of an entry: the text is a C string. -/
structure LogMessage where
  level : GgmlLogLevel
  withPrefix : Bool
  timestamp : Int
  text : List UInt8
  deriving DecidableEq

namespace LogEntry

def message (e : LogEntry) : LogMessage where
  level := e.level
  withPrefix := e.withPrefix
  timestamp := e.timestamp
  text := e.msg.takeWhile (· ≠ 0)

/-- The message to print, or the end marker. -/
def item (e : LogEntry) : Option LogMessage := if e.isEnd then none else some e.message

/-- An entry with a buffer of the initial message size. -/
def fresh : LogEntry := { msg := List.replicate 256 0 }

end LogEntry

/-- `vsnprintf` of a text into a buffer, which is made larger when the text and its zero do not
fit. -/
def formatInto (msg text : List UInt8) : List UInt8 :=
  if msg.length ≤ text.length then text ++ [0] else text ++ 0 :: msg.drop (text.length + 1)

/-- The worker thread: one that was started, one that has taken the end marker, or none since it
was joined. -/
inductive LogWorker where
  | working
  | ended
  | joined
  deriving DecidableEq, Repr

structure CommonLog where
  withPrefix : Bool
  timestamps : Bool
  running : Bool
  ring : RingBuffer LogEntry
  worker : LogWorker
  /-- `std::terminate` was called. -/
  terminated : Bool
  printed : List LogMessage
  added : List LogMessage

/-- What a caller logs: the level, the formatted text, and the time since the start. -/
structure LogCall where
  level : GgmlLogLevel
  text : {s : List UInt8 // 0 ∉ s}
  time : Int

inductive LogAction where
  | add (call : LogCall)
  | take
  | pause
  | join
  | resume
  | setPrefix (value : Bool)
  | setTimestamps (value : Bool)

namespace CommonLog

/-- `resume`: the worker is started in `thrd`, which must not hold a thread that was not joined. -/
def resume (s : CommonLog) : CommonLog :=
  if s.running then s
  else if s.worker = .joined then { s with running := true, worker := .working }
  else { s with terminated := true }

/-- The constructor, which starts the worker. -/
def init (capacity : Nat) (h : 0 < capacity) : CommonLog :=
  resume
    { withPrefix := false, timestamps := false, running := false
      ring :=
        { slots := List.replicate capacity .fresh, head := 0, tail := 0
          head_lt := by simpa using h
          tail_lt := by simpa using h }
      worker := .joined, terminated := false, printed := [], added := [] }

def callMessage (s : CommonLog) (call : LogCall) : LogMessage where
  level := call.level
  withPrefix := s.withPrefix
  timestamp := if s.timestamps then call.time else 0
  text := call.text.1

/-- What `add` writes into the entry at the tail. -/
def fill (s : CommonLog) (call : LogCall) (entry : LogEntry) : LogEntry where
  level := call.level
  withPrefix := s.withPrefix
  timestamp := if s.timestamps then call.time else 0
  msg := formatInto entry.msg call.text.1
  isEnd := false

def add (s : CommonLog) (call : LogCall) : CommonLog :=
  if s.running then
    { s with
      ring := s.ring.pushGrow (s.fill call) .fresh
      added := s.added ++ [s.callMessage call] }
  else s

/-- One turn of the worker's loop, which waits while the ring is empty. -/
def take (s : CommonLog) : Option CommonLog :=
  if s.worker = .working then
    s.ring.pop.map fun (cur, ring) =>
      if cur.isEnd then { s with ring, worker := .ended }
      else { s with ring, printed := s.printed ++ [cur.message] }
  else none

/-- `pause` under the mutex: an entry to signal the worker to stop. -/
def pause (s : CommonLog) : CommonLog :=
  if s.running then
    { s with running := false, ring := s.ring.push fun entry => { entry with isEnd := true } }
  else s

/-- The rest of `pause`, which waits for the worker. -/
def join (s : CommonLog) : Option CommonLog :=
  if s.worker = .ended then some { s with worker := .joined } else none

/-- The state after an action, if it can happen. -/
def step (s : CommonLog) (a : LogAction) : Option CommonLog :=
  if s.terminated then none
  else match a with
    | .add call => some (s.add call)
    | .take => s.take
    | .pause => some s.pause
    | .join => s.join
    | .resume => some s.resume
    | .setPrefix value => some { s with withPrefix := value }
    | .setTimestamps value => some { s with timestamps := value }

end CommonLog

end LamaServer
