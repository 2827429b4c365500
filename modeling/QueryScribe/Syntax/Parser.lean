import QueryScribe.Failure
import QueryScribe.Grammar.State
import QueryScribe.Syntax.Layout
import QueryScribe.Syntax.Lexer
import QueryScribe.Syntax.Tree

/-!
# Reading a source

The reader keeps a stack of what it has read, each entry with the state that follows it. A token is
put on the stack as soon as the state on top expects it; before that, productions that are complete
replace their parts by one entry. The state on top also says which terminals are looked for in the
text.
-/

namespace QueryScribe

/-- Why a text is no source. -/
inductive SyntaxFault
  | token (t : Token)
  | character (c : Char) (offset : Nat)
  | indentation (m : IndentMismatch)

/-- A fault as the failure of a text. Indentation has no place. -/
def SyntaxFault.toFailure (text : List Char) : SyntaxFault → Failure
  | token t => ⟨.unexpectedToken t.describe, some (Place.ofOffset text t.span.start)⟩
  | character c offset => ⟨.unexpectedCharacter c, some (Place.ofOffset text offset)⟩
  | indentation m => ⟨.indentation m.found m.expected, none⟩

namespace Parser

/-- What has been read for one symbol: its extent, and the nodes it gives to the node around it. -/
structure Fragment where
  span : Span
  trees : List Tree

/-- An entry of the stack. -/
structure Frame where
  state : State
  fragment : Fragment

/-- A token as a fragment: delimiters leave no node. -/
def Fragment.ofToken (t : Token) : Fragment :=
  ⟨t.span, if t.kind.isDelimiter then [] else [.leaf 0 t]⟩

/-- The extent of consecutive fragments. No fragments span nothing, at the start of the text. -/
def Fragment.extent : List Fragment → Span
  | [] => ⟨0, 0⟩
  | f :: fs => f.span.to ((f :: fs).getLastD f).span

/-- The fragments of a complete production as one. -/
def Fragment.join (node : Option Rule) (parts : List Fragment) : Fragment :=
  let span := extent parts
  let trees := parts.flatMap (·.trees)
  ⟨span, match node with
    | none => trees
    | some rule => [.node 0 rule span trees]⟩

variable (a : Analysis)

/-- The state on top of a stack. -/
def top : List Frame → State
  | [] => .initial
  | f :: _ => f.state

/-- The stack after a complete production has taken its parts. -/
def reduce (p : Production) (stack : List Frame) : List Frame :=
  let parts := (stack.take p.rhs.length).reverse.map (·.fragment)
  let below := stack.drop p.rhs.length
  ⟨(top below).next a (.category p.lhs), .join p.node parts⟩ :: below

/-- More reductions than can come in a row: every one of them shortens the stack or leads from a
category to one that is built on it. -/
def patience (stack : List Frame) : Nat := (stack.length + 1) * Category.count

/-- The stack with a token on it, after at most `n` reductions. -/
def feedWithin (t : Token) : Nat → List Frame → Option (List Frame)
  | 0, _ => none
  | n + 1, stack =>
    let s := top stack
    if s.shifts a t.kind then some (⟨s.next a (.terminal t.kind), .ofToken t⟩ :: stack)
    else (s.reduction? a t.kind).bind fun p => feedWithin t n (reduce a p stack)

/-- The stack with a token on it. -/
def feed (stack : List Frame) (t : Token) : Except SyntaxFault (List Frame) :=
  match feedWithin a t (patience stack) stack with
  | some stack => .ok stack
  | none => .error (.token t)

/-- The tree of a stack that holds a whole source, after at most `n` reductions. -/
def finishWithin : Nat → List Frame → Option Tree
  | 0, _ => none
  | n + 1, stack =>
    ((top stack).reduction? a .endOfInput).bind fun p =>
      if p.lhs = .source then stack.head?.bind (·.fragment.trees.head?)
      else finishWithin n (reduce a p stack)

/-- Where reading stands between two tokens of the text. -/
structure Progress where
  stack : List Frame := []
  layout : Layout := {}
  /-- The last token that was put on the stack. -/
  fed : Option Token := none
  /-- The last token of the text. -/
  seen : Span := ⟨0, 0⟩

/-- Puts tokens on the stack one after the other. -/
def Progress.feed (p : Progress) (ts : List Token) : Except SyntaxFault Progress :=
  ts.foldlM (fun p t => do return { p with stack := ← Parser.feed a p.stack t, fed := some t }) p

/-- Takes a token of the text. -/
def Progress.take (p : Progress) (t : Token) : Except SyntaxFault Progress := do
  let (ts, layout) := p.layout.step t
  let p ← p.feed a ts
  match layout with
  | .ok layout => return { p with layout, seen := t.span }
  | .error mismatch => throw (.indentation mismatch)

/-- The token that stands for the end of the text. It stands where the last token stands, or at the
start of the text if that token spells nothing. -/
def endToken (fed : Option Token) : Token :=
  let span := match fed with
    | some t => if t.text.isEmpty then ⟨0, 0⟩ else t.span
    | none => ⟨0, 0⟩
  ⟨.endOfInput, "", span⟩

/-- The tree once the text is used up. -/
def Progress.finish (p : Progress) : Except SyntaxFault Tree := do
  let p ← p.feed a (p.layout.finish p.seen)
  match finishWithin a (patience p.stack) p.stack with
  | some tree => return tree
  | none => throw (.token (endToken p.fed))

/-- The fault at a place where no acceptable terminal matches: any other terminal that does, else
the character. -/
def faultAt (offset : Nat) (c : Char) (cs : List Char) : SyntaxFault :=
  match Lexer.scan Terminal.isWritten (c :: cs) with
  | some ⟨some kind, n⟩ =>
    .token ⟨kind, String.ofList ((c :: cs).take n), ⟨offset, offset + n⟩⟩
  | _ => .character c offset

/-- Reads the rest of a text from an offset, at most `n` lexemes of it. -/
def readWithin : Nat → Nat → List Char → Progress → Except SyntaxFault Tree
  | _, _, [], p => p.finish a
  | 0, offset, c :: cs, _ => .error (faultAt offset c cs)
  | n + 1, offset, c :: cs, p =>
    match Lexer.scan ((top p.stack).accepts a) (c :: cs) with
    | none => .error (faultAt offset c cs)
    | some ⟨none, m⟩ => readWithin n (offset + m) ((c :: cs).drop m) p
    | some ⟨some kind, m⟩ => do
      let t : Token := ⟨kind, String.ofList ((c :: cs).take m), ⟨offset, offset + m⟩⟩
      readWithin n (offset + m) ((c :: cs).drop m) (← p.take a t)

end Parser

/-- The text that is read for a source: without blanks around it, and with a line break at its
end. -/
def normalize (source : String) : List Char := Text.trim source.toList ++ ['\n']

/-- The tree of a source. -/
def parse (source : String) : Except SyntaxFault Tree :=
  let text := normalize source
  (Parser.readWithin .source text.length 0 text {}).map fun t => (t.numberFrom 0).1

end QueryScribe
