import QueryScribe.Grammar.Rule
import QueryScribe.Syntax.Token

/-!
# Parse trees

The tree of a source keeps every rule that was used, also those that hold a single rule. Nodes and
leaves are numbered in the order in which they are met from the root downwards, so what is noted
about a node can be kept beside the tree, under its number.
-/

namespace QueryScribe

/-- A leaf holds a token; an inner node a rule, its extent and its children. -/
inductive Tree
  | leaf (id : Nat) (token : Token)
  | node (id : Nat) (rule : Rule) (span : Span) (children : List Tree)
deriving Repr

namespace Tree

/-- The number of a node. -/
def id : Tree → Nat
  | leaf id _ => id
  | node id _ _ _ => id

/-- The rule of an inner node, the terminal of a leaf. -/
def label : Tree → String
  | leaf _ token => token.kind.label
  | node _ rule _ _ => rule.label

/-- The extent of a node. -/
def span : Tree → Span
  | leaf _ token => token.span
  | node _ _ span _ => span

/-- The children of an inner node. -/
def children : Tree → List Tree
  | leaf _ _ => []
  | node _ _ _ children => children

/-- The rule of an inner node. -/
def rule? : Tree → Option Rule
  | leaf _ _ => none
  | node _ rule _ _ => some rule

/-- The token of a leaf. -/
def token? : Tree → Option Token
  | leaf _ token => some token
  | node _ _ _ _ => none

/-- Whether a node is an inner node. -/
def isNode : Tree → Bool
  | leaf _ _ => false
  | node _ _ _ _ => true

/-- Whether a node is an inner node of a rule. -/
def isOf (r : Rule) (t : Tree) : Bool := t.rule? == some r

/-- The inner nodes among the children. -/
def subtrees (t : Tree) : List Tree := t.children.filter isNode

/-- The tokens among the children. -/
def tokens (t : Tree) : List Token := t.children.filterMap token?

/-- A node that holds a single inner node and means nothing of its own. -/
def isPassThrough : Tree → Bool
  | node _ rule _ [child] => child.isNode && !rule.isCategory
  | _ => false

/-- The node below all pass-through nodes, or the first of them that `stop` picks. -/
def skipUntil (stop : Tree → Bool) : Tree → Tree
  | node id rule span [child] =>
    let t := node id rule span [child]
    if t.isPassThrough && !stop t then skipUntil stop child else t
  | t => t
termination_by structural t => t

/-- The node below all pass-through nodes. -/
def core (t : Tree) : Tree := t.skipUntil fun _ => false

mutual

/-- The first token below a node. -/
def firstToken? : Tree → Option Token
  | leaf _ token => some token
  | node _ _ _ children => firstTokenIn? children

/-- The first token in or below some nodes. -/
def firstTokenIn? : List Tree → Option Token
  | [] => none
  | t :: ts => (firstToken? t) <|> firstTokenIn? ts

end

mutual

/-- The inner nodes of a tree, each before those below it. -/
def nodes : Tree → List Tree
  | leaf _ _ => []
  | node id rule span children => node id rule span children :: nodesIn children

/-- The inner nodes of some trees. -/
def nodesIn : List Tree → List Tree
  | [] => []
  | t :: ts => nodes t ++ nodesIn ts

end

mutual

/-- The number of levels of a tree. -/
def height : Tree → Nat
  | leaf _ _ => 1
  | node _ _ _ children => heightIn children + 1

/-- The greatest number of levels of some trees. -/
def heightIn : List Tree → Nat
  | [] => 0
  | t :: ts => max (height t) (heightIn ts)

end

mutual

/-- The tree with its nodes numbered from `n`, and the number after the last. -/
def numberFrom (n : Nat) : Tree → Tree × Nat
  | leaf _ token => (leaf n token, n + 1)
  | node _ rule span children =>
    let (children, m) := numberFromIn (n + 1) children
    (node n rule span children, m)

/-- The trees with their nodes numbered from `n`, and the number after the last. -/
def numberFromIn (n : Nat) : List Tree → List Tree × Nat
  | [] => ([], n)
  | t :: ts =>
    let (t, m) := numberFrom n t
    let (ts, m) := numberFromIn m ts
    (t :: ts, m)

end

/-- The source text of a node. -/
def text (source : List Char) : Tree → List Char
  | leaf _ token => token.text.toList
  | node _ _ span _ => span.slice source

/-- The place where a node starts. -/
def place (source : List Char) (t : Tree) : Place := Place.ofOffset source t.span.start

end Tree

end QueryScribe
