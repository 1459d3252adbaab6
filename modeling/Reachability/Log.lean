/-!
# Log messages

Computations report what they do as values.  A message may leave a place for
the time that has elapsed.
-/

namespace Reachability

inductive LogLevel where
  | error | warn | info | debug | trace
deriving DecidableEq, Repr

namespace LogLevel

def rank : LogLevel → Int
  | error => 1
  | warn => 2
  | info => 3
  | debug => 4
  | trace => 5

def tag : LogLevel → String
  | error => "[ERROR] "
  | warn => "[WARN] "
  | info => "[INFO] "
  | debug => "[DEBUG] "
  | trace => "[TRACE] "

end LogLevel

inductive LogPart where
  | text (text : String)
  | elapsed
deriving DecidableEq, Repr

structure LogMessage where
  level : LogLevel
  parts : List LogPart
deriving DecidableEq, Repr

namespace LogMessage

def ofText (level : LogLevel) (text : String) : LogMessage := ⟨level, [.text text]⟩

def line (message : LogMessage) (elapsed : String) : String :=
  let body := String.join (message.parts.map fun part =>
    match part with
    | .text text => text
    | .elapsed => elapsed)
  message.level.tag ++ (if body.endsWith "\n" then body else body ++ "\n")

def timed (elapsed : String) (message : LogMessage) : LogMessage :=
  { message with
    parts := message.parts.map fun part =>
      match part with
      | .text text => .text text
      | .elapsed => .text elapsed }

end LogMessage

structure LogFilter where
  level : Int
deriving DecidableEq, Repr

namespace LogFilter

/-- The filter of given settings.  Silencing warnings leaves errors only. -/
def ofSettings (level : Int) (silenceWarnings : Bool) : LogFilter :=
  ⟨if silenceWarnings && LogLevel.warn.rank ≤ level then LogLevel.error.rank else level⟩

def admits (filter : LogFilter) (level : LogLevel) : Bool := level.rank ≤ filter.level

def select (filter : LogFilter) (messages : List LogMessage) : List LogMessage :=
  messages.filter fun message => filter.admits message.level

end LogFilter

end Reachability
