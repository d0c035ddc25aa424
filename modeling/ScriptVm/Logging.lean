import ScriptVm.Assoc
import ScriptVm.Text

/-!
# Logging

Records pass from named loggers to a list of sinks. A record is written when its level is at
least the level of its logger and at least the global level; nothing is ever written at level
`off`.

What the sinks write goes into `Streams`, a value that a program prints when it is done. The
time stamp of a line and the source location of the library's own records are texts that the
caller chooses, since neither follows from what the program did.
-/

set_option autoImplicit false

namespace ScriptVm

/-- How important a record is, `off` above all. -/
inductive Level where
  | trace
  | debug
  | info
  | warn
  | error
  | fatal
  | off
  deriving Repr, DecidableEq, Inhabited

namespace Level

/-- The position in the order of importance. -/
def rank : Level → Nat
  | trace => 0
  | debug => 1
  | info => 2
  | warn => 3
  | error => 4
  | fatal => 5
  | off => 6

def name : Level → Text
  | trace => "TRACE"
  | debug => "DEBUG"
  | info => "INFO"
  | warn => "WARN"
  | error => "ERROR"
  | fatal => "FATAL"
  | off => "OFF"

/-- The spellings that `ofText?` reads, in small letters. -/
def spellings : List (Text × Level) :=
  [("trace", trace), ("debug", debug), ("info", info), ("warn", warn), ("warning", warn),
   ("error", error), ("fatal", fatal), ("off", off)]

/-- Reads the name of a level in any mixture of capitals and small letters. -/
def ofText? (t : Text) : Option Level := Assoc.find t.lower spellings

/-- The escape sequence that colours the level's name on a terminal. -/
def colour : Level → Text
  | trace => "\x1b[90m"
  | debug => "\x1b[36m"
  | info => "\x1b[32m"
  | warn => "\x1b[33m"
  | error => "\x1b[31m"
  | fatal => "\x1b[35m"
  | off => ""

end Level

/-- A message on its way to the sinks. -/
structure LogRecord where
  level : Level
  logger : Text
  message : Text
  /-- `file:line` of the place that logged. -/
  location : Text

/-- What a capturing sink has seen. -/
inductive Captured where
  | record (r : LogRecord)
  | flush

/-- Everything that a program has written. -/
structure Streams where
  out : Array Text := #[]
  err : Array Text := #[]
  files : Assoc Text Text := Assoc.empty
  captured : Array Captured := #[]

namespace Streams

instance : Inhabited Streams := ⟨{}⟩

def print (s : Streams) (t : Text) : Streams := { s with out := s.out.push t }

def printError (s : Streams) (t : Text) : Streams := { s with err := s.err.push t }

def capture (s : Streams) (c : Captured) : Streams := { s with captured := s.captured.push c }

/-- Appends to the file at `path`. -/
def appendFile (s : Streams) (path t : Text) : Streams :=
  { s with files := s.files.insert path ((s.files.get? path).getD [] ++ t) }

def outText (s : Streams) : Text := s.out.toList.flatten

def errText (s : Streams) : Text := s.err.toList.flatten

def fileText (s : Streams) (path : Text) : Text := (s.files.get? path).getD []

end Streams

/-- Where records go. A file holds its lines back until it is flushed or closed. -/
inductive Sink where
  | capture
  | console (colours : Bool)
  | file (path : Text) (pending : List Text)

namespace Sink

/-- The name of a logger in brackets, unless it is empty. -/
def bracketed (logger : Text) : Text := if logger.isEmpty then "" else "[" ++ logger ++ "] "

/-- The line of a record on the console. Only the two lowest levels show the location. -/
def consoleLine (clock : Text) (colours : Bool) (r : LogRecord) : Text :=
  let start : Text := if colours then r.level.colour else ""
  let stop : Text := if colours then "\x1b[0m" else ""
  let location : Text := if r.level.rank ≤ Level.debug.rank then " (" ++ r.location ++ ")" else ""
  "[" ++ clock ++ "] " ++ start ++ "[" ++ r.level.name ++ "]" ++ stop ++ " " ++ bracketed r.logger
    ++ r.message ++ location ++ "\n"

/-- The line of a record in a file. The name of the logger and the message end at a zero byte. -/
def fileLine (clock : Text) (r : LogRecord) : Text :=
  let logger : Text := if r.logger.isEmpty then "" else "[" ++ r.logger.beforeNul ++ "] "
  "[" ++ clock ++ "] [" ++ r.level.name ++ "] " ++ logger ++ r.message.beforeNul ++ " ("
    ++ r.location ++ ")\n"

/-- Writes a record. On the console, warnings and worse go to the error stream. -/
def write (clock : Text) (r : LogRecord) (sink : Sink) (s : Streams) : Sink × Streams :=
  match sink with
  | capture => (sink, s.capture (.record r))
  | console colours =>
    let line := consoleLine clock colours r
    (sink, if Level.warn.rank ≤ r.level.rank then s.printError line else s.print line)
  | file path pending => (file path (fileLine clock r :: pending), s)

/-- Writes what a file holds back. -/
def drain (sink : Sink) (s : Streams) : Streams :=
  match sink with
  | file path pending => if pending.isEmpty then s else s.appendFile path pending.reverse.flatten
  | _ => s

def flush (sink : Sink) (s : Streams) : Sink × Streams :=
  match sink with
  | capture => (sink, s.capture .flush)
  | console _ => (sink, s)
  | file path _ => (file path [], sink.drain s)

/-- Passes the streams through all sinks in order. -/
def through (f : Sink → Streams → Sink × Streams) : List Sink → Streams → List Sink × Streams
  | [], s => ([], s)
  | sink :: rest, s =>
    let (sink, s) := f sink s
    let (rest, s) := through f rest s
    (sink :: rest, s)

end Sink

/-- The state of the logging system. -/
structure Logging where
  /-- The global level. -/
  level : Level := .info
  sinks : List Sink := []
  /-- The levels of the loggers that have one; the others let everything pass. -/
  loggers : Assoc Text Level := Assoc.empty
  started : Bool := false
  /-- The time stamp of every line. -/
  clock : Text := []
  /-- The location of the records that the library itself makes. -/
  here : Text := []
  streams : Streams := {}

namespace Logging

instance : Inhabited Logging := ⟨{}⟩

/-- The name of the logger that is there from the start. -/
def defaultLogger : Text := "quartz"

/-- Starts with the given sinks, unless logging has started already. Sinks added before are
closed. -/
def startWith (l : Logging) (sinks : List Sink) : Logging :=
  if l.started then l
  else { l with
    sinks, started := true
    streams := l.sinks.foldl (fun s sink => sink.drain s) l.streams }

/-- Starts with a coloured console behind the sinks added before, unless logging has started. -/
def start (l : Logging) : Logging :=
  if l.started then l else { l with sinks := l.sinks ++ [.console true], started := true }

def addSink (l : Logging) (sink : Sink) : Logging := { l with sinks := l.sinks ++ [sink] }

def flush (l : Logging) : Logging :=
  let (sinks, streams) := Sink.through Sink.flush l.sinks l.streams
  { l with sinks, streams }

/-- Flushes and drops all sinks. The loggers keep their levels. -/
def shutdown (l : Logging) : Logging := { l.flush with sinks := [], started := false }

def setLevel (l : Logging) (level : Level) : Logging := { l with level }

/-- Sets the level of one logger, starting the system as every look-up of a logger does. -/
def setLoggerLevel (l : Logging) (logger : Text) (level : Level) : Logging :=
  let l := l.start
  { l with loggers := l.loggers.insert logger level }

def loggerLevel (l : Logging) (logger : Text) : Level := (l.loggers.get? logger).getD .trace

/-- Whether a record with this level from a logger with that level reaches the sinks. -/
def passes (l : Logging) (own level : Level) : Bool :=
  level ≠ .off && own.rank ≤ level.rank && l.level.rank ≤ level.rank

/-- Whether a record of the named logger reaches the sinks. -/
def enabled (l : Logging) (logger : Text) (level : Level) : Bool :=
  l.passes (l.loggerLevel logger) level

/-- Hands a record to every sink. -/
def emit (l : Logging) (r : LogRecord) : Logging :=
  let (sinks, streams) := Sink.through (Sink.write l.clock r) l.sinks l.streams
  { l with sinks, streams }

/-- Logs through a named logger. -/
def log (l : Logging) (logger : Text) (level : Level) (message location : Text) : Logging :=
  let l := l.start
  if l.enabled logger level then l.emit ⟨level, logger, message, location⟩ else l

/-- Logs through the default logger, which no named logger shares its level with. -/
def logDefault (l : Logging) (level : Level) (message location : Text) : Logging :=
  let l := l.start
  if l.passes .trace level then l.emit ⟨level, defaultLogger, message, location⟩ else l

/-- Logs a record of the library itself. -/
def note (l : Logging) (logger : Text) (level : Level) (message : Text) : Logging :=
  l.log logger level message l.here

end Logging

end ScriptVm
