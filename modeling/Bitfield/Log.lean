/-!
Log entries, each with the level it is reported at.
-/

namespace Bitfield

namespace Log

inductive Level where
  | debug
  | trace
deriving DecidableEq

def Level.name : Level → String
  | debug => "DEBUG"
  | trace => "TRACE"

structure Entry where
  level : Level
  message : String
deriving DecidableEq

/-- An entry on one line: the level, then the message. -/
def Entry.line (e : Entry) : String :=
  e.level.name ++ " " ++ e.message

end Log

end Bitfield
