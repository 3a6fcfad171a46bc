/-!
A named record shown with its fields, on one line or as an indented block with one field a line.
-/

namespace Bitfield

/-- A name and the fields shown under it, each with the text of its value. -/
structure Record where
  name : String
  fields : List (String × String)

namespace Record

def line (r : Record) : String :=
  r.name ++ " \x7b " ++ ", ".intercalate (r.fields.map fun (key, text) => key ++ ": " ++ text) ++
    " \x7d"

/-- The record as a block: every field on a line of its own, indented and closed by a comma. -/
def block (r : Record) : String :=
  r.name ++ " \x7b\n" ++
    String.join (r.fields.map fun (key, text) => "    " ++ key ++ ": " ++ text ++ ",\n") ++ "\x7d"

end Record

end Bitfield
