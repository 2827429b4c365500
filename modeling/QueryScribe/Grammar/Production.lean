import QueryScribe.Grammar.Terminal
import QueryScribe.Grammar.Rule

/-!
# Productions

A production says that a category may consist of a sequence of symbols. Categories are the rules of
the grammar, the runs that repeated groups stand for, and the whole source. Phrases are written with
options, choices and runs; a phrase stands for the list of its expansions into plain sequences. No
category but the whole source can be empty.
-/

namespace QueryScribe

/-- A group that may stand several times in a row. A run has no node of its own: what it holds
belongs to the node around it. -/
inductive Run
  | lines | semicolonSmalls | equalTestLists | commaTestsOrStars | commaDottedNames | commaNames
  | dotNames | elifs | excepts | commaWithItems | decorators | stmts | orTests | andTests
  | comparisons | barExprs | caretExprs | ampersandExprs | shifts | sums | products | strings
  | commaKeyValues | commaTests | commaSubscripts | commaExprsOrStars | commaArguments
deriving DecidableEq, Repr

/-- The number of runs. -/
def Run.count : Nat := 27

/-- What a production may have on its left side. -/
inductive Category
  | source
  | rule (r : Rule)
  | run (r : Run)
deriving DecidableEq, Repr

/-- The position of a category in tables over all categories. -/
def Category.code : Category → Nat
  | .source => 0
  | .rule r => 1 + r.ctorIdx
  | .run r => 1 + Rule.count + r.ctorIdx

/-- The number of categories. -/
def Category.count : Nat := 1 + Rule.count + Run.count

/-- A terminal or a category. -/
inductive Symbol
  | terminal (t : Terminal)
  | category (c : Category)
deriving DecidableEq, Repr

/-- The position of a symbol in tables over all symbols. -/
def Symbol.code : Symbol → Nat
  | .terminal t => t.ctorIdx
  | .category c => Terminal.count + c.code

/-- A category may consist of these symbols in this order. `node` names the node that is made, if
one is. -/
structure Production where
  lhs : Category
  rhs : List Symbol
  node : Option Rule
deriving DecidableEq, Repr

/-- A phrase, as the list of its expansions. -/
abbrev Phrase := List (List Symbol)

namespace Phrase

/-- One terminal. -/
def word (t : Terminal) : Phrase := [[.terminal t]]

/-- One node of a rule. -/
def one (r : Rule) : Phrase := [[.category (.rule r)]]

/-- A group, at least once. -/
def some (r : Run) : Phrase := [[.category (.run r)]]

/-- A group, any number of times. -/
def many (r : Run) : Phrase := [[.category (.run r)], []]

/-- A phrase that may be left out. -/
def opt (p : Phrase) : Phrase := p ++ [[]]

/-- Any of several phrases. -/
def any (ps : List Phrase) : Phrase := ps.flatten

/-- Phrases one after the other. -/
def seq : List Phrase → Phrase
  | [] => [[]]
  | p :: ps => p.flatMap fun front => (seq ps).map (front ++ ·)

end Phrase

end QueryScribe
