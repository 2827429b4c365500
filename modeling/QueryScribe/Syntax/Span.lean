/-!
# Spans and places

A span is a stretch of the text by offsets; a place is what messages show of an offset: its line and
column, both counted from one.
-/

namespace QueryScribe

/-- A stretch of text, from the offset `start` up to but without `stop`. -/
structure Span where
  start : Nat
  stop : Nat
deriving DecidableEq, Repr

/-- The stretch from the start of one span to the end of another. -/
def Span.to (s t : Span) : Span := ⟨s.start, t.stop⟩

/-- The characters of a text in a span. -/
def Span.slice (s : Span) (text : List Char) : List Char :=
  (text.drop s.start).take (s.stop - s.start)

/-- A line and a column. -/
structure Place where
  line : Nat
  column : Nat
deriving DecidableEq, Repr

/-- The place that is reached from a place through these characters. -/
def Place.after (p : Place) : List Char → Place
  | [] => p
  | c :: cs => Place.after (if c = '\n' then ⟨p.line + 1, 1⟩ else ⟨p.line, p.column + 1⟩) cs

/-- The place of an offset in a text. -/
def Place.ofOffset (text : List Char) (offset : Nat) : Place :=
  Place.after ⟨1, 1⟩ (text.take offset)

end QueryScribe
