import QueryScribe.Grammar.Terminal
import QueryScribe.Syntax.Span
import QueryScribe.Text.Quoted

/-!
# Tokens
-/

namespace QueryScribe

/-- A piece of the source: its kind, its text and where it stands. A token that layout makes stands
where the token stands that gave rise to it. -/
structure Token where
  kind : Terminal
  text : String
  span : Span
deriving DecidableEq, Repr

/-- A token as messages show it. -/
def Token.describe (t : Token) : String :=
  "Token(" ++ Text.quoted t.kind.label ++ ", " ++ Text.quoted t.text ++ ")"

end QueryScribe
