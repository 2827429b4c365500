import QueryScribe.Literal.StringToken
import QueryScribe.Syntax.Tree

/-!
# The shape of a query

A query sees of an expression only whether it is a document with entries, an array, or anything
else. Pass-through nodes do not count.
-/

namespace QueryScribe

/-- What a query sees of a node. A document has at least one entry. -/
inductive Shape
  | document (tree : Tree) (entries : List (Tree × Shape))
  | array (tree : Tree) (items : List Shape)
  | scalar (tree : Tree)

/-- The text of a key that is a string, with its escapes as they are. -/
def Tree.stringKey? (t : Tree) : Option String :=
  let core := t.core
  if core.isOf .stringLiteral then
    some (String.ofList (core.tokens.flatMap fun token => StringToken.body token.text.toList))
  else none

namespace Shape

/-- The node of a shape. -/
def tree : Shape → Tree
  | document tree _ => tree
  | array tree _ => tree
  | scalar tree => tree

mutual

/-- The shape of a node that stands below pass-through nodes, the first of which is `top`. -/
def under (top : Tree) : Tree → Shape
  | .leaf _ _ => scalar top
  | .node _ .objectLiteral _ (.node _ _ _ entries :: _) =>
    if entries.all fun t => !t.isNode || t.isOf .keyValue then
      match entriesOf entries with
      | [] => scalar top
      | entry :: rest => document top (entry :: rest)
    else scalar top
  | .node _ .arrayLiteral _ (.node _ _ _ items :: _) => array top (itemsOf items)
  | .node _ .arrayLiteral _ _ => array top []
  | .node _ rule _ [child] => if rule.isCategory then scalar top else under top child
  | .node _ _ _ _ => scalar top

/-- The entries of a document. -/
def entriesOf : List Tree → List (Tree × Shape)
  | [] => []
  | .node _ _ _ (key :: value :: _) :: rest => (key, under value value) :: entriesOf rest
  | _ :: rest => entriesOf rest

/-- The items of an array. -/
def itemsOf : List Tree → List Shape
  | [] => []
  | .leaf _ _ :: rest => itemsOf rest
  | .node id rule span children :: rest =>
    under (.node id rule span children) (.node id rule span children) :: itemsOf rest

end

/-- The shape of a node. -/
def ofTree (t : Tree) : Shape := under t t

/-- The entries of a document, none for anything else. -/
def entries : Shape → List (Tree × Shape)
  | document _ entries => entries
  | _ => []

/-- The items of an array, none for anything else. -/
def items : Shape → List Shape
  | array _ items => items
  | _ => []

/-- Whether a text is an operator. -/
def isOperator (key : String) : Bool := "$".toList.isPrefixOf key.toList

/-- The operators of entries whose keys all are operators. -/
def operatorsOf? {α : Type} : List (Tree × α) → Option (List (String × α))
  | [] => some []
  | (key, value) :: rest =>
    match key.stringKey? with
    | some key =>
      if isOperator key then (operatorsOf? rest).map ((key, value) :: ·) else none
    | none => none

/-- The operators of a document whose keys all are operators. -/
def operators? : Shape → Option (List (String × Shape))
  | document _ entries => operatorsOf? entries
  | _ => none

end Shape

end QueryScribe
