/-! A record written out by name: on one line, or with a line for each field. -/
namespace Reachability.Text

structure Record where
  name : String
  fields : List (String × String)

namespace Record

def field (entry : String × String) : String :=
  entry.1 ++ ": " ++ entry.2

/-- On one line: `Pair \x7b a: 1, b: 2 \x7d`. -/
def inline (r : Record) : String :=
  r.name ++ " \x7b " ++ ", ".intercalate (r.fields.map field) ++ " \x7d"

/-- A line for each field, indented by four blanks and ended by a comma. -/
def block (r : Record) : String :=
  r.name ++ " \x7b\n" ++
    String.join (r.fields.map fun entry => "    " ++ field entry ++ ",\n") ++ "\x7d"

end Record

/-- An optional value, the way records show it. -/
def option (text : Option String) : String :=
  match text with
  | some t => "Some(" ++ t ++ ")"
  | none => "None"

def flag (b : Bool) : String :=
  if b then "true" else "false"

end Reachability.Text
