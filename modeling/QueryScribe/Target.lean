import QueryScribe.Target.Java
import QueryScribe.Target.Python

/-!
# The known targets
-/

namespace QueryScribe

namespace Target

/-- The targets in the order of their names. -/
def all : List Target := [java, python]

/-- The target with a name. -/
def ofName? (name : String) : Option Target := all.find? (·.name == name)

/-- What is said of a name that no target has. -/
def unknown (name : String) : String :=
  "unknown target '" ++ name ++ "' (available: " ++ ", ".intercalate (all.map (·.name)) ++ ")"

end Target

end QueryScribe
