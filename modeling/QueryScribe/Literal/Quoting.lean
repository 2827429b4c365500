/-!
# Quoting

The body of a string is written between quotes without being decoded: its escapes are kept. A quote
of the other kind loses the backslash before it, and a quote of the kind in use gets one unless the
backslashes before it already escape it.
-/

namespace QueryScribe.Quoting

/-- The text with each backslash before `quote` taken away. -/
def unescape (quote : Char) : List Char → List Char
  | [] => []
  | '\\' :: c :: cs =>
    if c = quote then quote :: unescape quote cs else '\\' :: unescape quote (c :: cs)
  | c :: cs => c :: unescape quote cs

/-- The text with a backslash before each `quote` after an even number of backslashes; `odd` tells
whether an odd number of them stands before the text. -/
def escape (quote : Char) : (odd : Bool) → List Char → List Char
  | _, [] => []
  | odd, c :: cs =>
    if c = '\\' then c :: escape quote (!odd) cs
    else if c = quote && !odd then '\\' :: c :: escape quote false cs
    else c :: escape quote false cs

/-- A body between double quotes. -/
def double (body : List Char) : List Char :=
  '"' :: (escape '"' false (unescape '\'' body) ++ ['"'])

/-- A body between single quotes. -/
def single (body : List Char) : List Char :=
  '\'' :: (escape '\'' false (unescape '"' body) ++ ['\''])

/-- Every backslash twice. -/
def doubleBackslashes (cs : List Char) : List Char :=
  cs.flatMap fun c => if c = '\\' then ['\\', '\\'] else [c]

end QueryScribe.Quoting
