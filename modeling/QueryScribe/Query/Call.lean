import QueryScribe.Target.Basic

/-!
# Calls of query helpers

A query is built as a tree of calls before it is written.
-/

namespace QueryScribe

/-- A query: calls of helpers, lists of queries, and texts that were written as they are. -/
inductive Call
  | text (written : String)
  | list (items : List Call)
  | helper (helper : Helper) (args : List Call)
  /-- An argument that is left out. -/
  | absent
  /-- A call that sets an option of an instance. -/
  | option (name : String) (value : Call)

namespace Call

mutual

/-- The text of a query. -/
def write (target : Target) : Call → String
  | text written => written
  | list items => target.writeArray (writeAll target items)
  | helper h args => h.write (writeAll target args)
  | absent => "null"
  | option name value => "." ++ name ++ "(" ++ write target value ++ ")"

/-- The texts of queries. -/
def writeAll (target : Target) : List Call → List String
  | [] => []
  | c :: cs => write target c :: writeAll target cs

end

end Call

end QueryScribe
