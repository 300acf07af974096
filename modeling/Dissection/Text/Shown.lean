/-!
# Shown records

How a value with named fields is shown in listings.
-/

namespace Dissection.Text

/-- A record: its name, and in braces its fields with their values. -/
def showRecord (name : String) (fields : List (String × String)) : String :=
  let shown := fields.map (fun field => field.1 ++ ": " ++ field.2)
  name ++ " \x7b " ++ ", ".intercalate shown ++ " \x7d"

end Dissection.Text
