/-!
# Log lines

Generators and passes report what they did as log lines, in order.  They are part
of their results, so nothing is printed on the way.
-/

namespace LoopNest

/-- How important a log line is. -/
inductive LogLevel where
  | error | warn | info | debug | trace
deriving DecidableEq, Inhabited

/-- The level in words. -/
def LogLevel.name : LogLevel → String
  | .error => "error"
  | .warn => "warn"
  | .info => "info"
  | .debug => "debug"
  | .trace => "trace"

/-- One report. -/
structure LogLine where
  /-- How important it is. -/
  level : LogLevel
  /-- What it says. -/
  text : String
deriving DecidableEq, Inhabited

/-- The line with its level in front. -/
def LogLine.render (l : LogLine) : String := l.level.name ++ ": " ++ l.text

end LoopNest
