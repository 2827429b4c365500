import QueryScribe.Syntax.Token

/-!
# Layout of lines

Inside brackets line breaks mean nothing. Elsewhere the blanks after a line break are the
indentation of the next line: a deeper line opens a block, and a less deep one closes the blocks
that are deeper than it, until its own depth is met again.
-/

namespace QueryScribe

/-- The open brackets and the indentation of the open blocks, innermost first. -/
structure Layout where
  brackets : Nat := 0
  levels : List Nat := []

/-- A line is indented as no open block is. -/
structure IndentMismatch where
  found : Nat
  expected : Nat

namespace Layout

/-- The columns that blanks take. -/
def width : List Char → Nat
  | [] => 0
  | c :: blanks => (if c = '\t' then 8 else if c = ' ' then 1 else 0) + width blanks

/-- The indentation of the innermost open block. -/
def level (l : Layout) : Nat := l.levels.headD 0

/-- What stands after the last line break of a text. -/
def lastLine (cs : List Char) : List Char := (cs.reverse.takeWhile (· ≠ '\n')).reverse

/-- The levels deeper than a column, and the others. -/
def closing (column : Nat) : List Nat → List Nat × List Nat
  | [] => ([], [])
  | n :: levels =>
    if column < n then let (shut, open') := closing column levels; (n :: shut, open')
    else ([], n :: levels)

/-- The tokens that the reader is given for a token of the text, and the layout after them, or what
is wrong with the indentation once the reader has taken them. -/
def step (l : Layout) (t : Token) : List Token × Except IndentMismatch Layout :=
  match t.kind with
  | .newline =>
    if l.brackets > 0 then ([], .ok l)
    else
      let blanks := lastLine t.text.toList
      let column := width blanks
      let mark (kind : Terminal) : Token := ⟨kind, String.ofList blanks, t.span⟩
      if l.level < column then
        ([t, mark .indent], .ok { l with levels := column :: l.levels })
      else
        let (shut, levels) := closing column l.levels
        let l := { l with levels }
        (t :: shut.map fun _ => mark .dedent,
          if l.level = column then .ok l else .error ⟨column, l.level⟩)
  | .leftParen | .leftBracket | .leftBrace => ([t], .ok { l with brackets := l.brackets + 1 })
  | .rightParen | .rightBracket | .rightBrace => ([t], .ok { l with brackets := l.brackets - 1 })
  | _ => ([t], .ok l)

/-- The tokens that close the blocks still open at the end, where the last token of the text
stands. -/
def finish (l : Layout) (last : Span) : List Token := l.levels.map fun _ => ⟨.dedent, "", last⟩

end Layout

end QueryScribe
