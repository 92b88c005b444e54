import DecisionLedger.Basic

/-! # Log lines

A line of the log is a plain text, or a record: the name of what happened, the time, and further
fields, separated by commas.
-/

namespace DecisionLedger

/-- How much a log line matters. -/
inductive LogLevel where
  | info
  | warning
  | error
  deriving Repr, DecidableEq

namespace LogLevel

def name : LogLevel → String
  | info => "INFO"
  | warning => "WARN"
  | error => "ERROR"

end LogLevel

/-- What a log line says. -/
inductive LogText where
  | plain (text : String)
  /-- Something that happened, with the fields behind its time. -/
  | record (name : String) (fields : List String)
  deriving Repr, DecidableEq

/-- A line of the log. -/
structure LogLine where
  level : LogLevel
  text : LogText
  deriving Repr, DecidableEq

namespace LogLine

def info (text : String) : LogLine := ⟨.info, .plain text⟩

def warning (text : String) : LogLine := ⟨.warning, .plain text⟩

def error (text : String) : LogLine := ⟨.error, .plain text⟩

/-- The line as written at a time, behind its level. -/
def render (line : LogLine) (time : String) : String :=
  line.level.name ++ " " ++
    match line.text with
    | .plain text => text
    | .record name fields => ", ".intercalate (name :: time :: fields)

end LogLine

end DecisionLedger
