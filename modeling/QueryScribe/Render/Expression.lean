import QueryScribe.Query.Document
import QueryScribe.Render.Call

/-!
# Expressions

Literals, collections, operators, names and members. Every expression that is written gets a type.
-/

namespace QueryScribe

/-- What failures say of a rule that is read but not written. -/
def Construct.ofRule (rule : Rule) : Construct :=
  match rule with
  | .annAssign | .augAssign | .assignStmt => assignment
  | .compFor | .compIf => comprehension
  | .keywordArgument => keywordArgument
  | _ =>
    let label := rule.label.toList
    let ending := "_stmt".toList
    other (String.ofList
      (if ending.isSuffixOf label then label.take (label.length - ending.length) else label))

/-- The text of a comparison. -/
def Target.compare (target : Target) (op a b : String) : String :=
  match Equality.ofSpelling? op, Membership.ofSpelling? op with
  | some equality, _ => target.equality equality a b
  | none, some membership => target.membership membership a b
  | none, none => a ++ " " ++ op ++ " " ++ b

/-- The text of an operation with two operands. -/
def Target.operate (target : Target) (op a b : String) : String :=
  if op = "//" then target.floorDivision a b else a ++ " " ++ op ++ " " ++ b

namespace Renderer

variable (r : Renderer)

/-- Fails because a node is read but not written. -/
def unsupported {α : Type} (t : Tree) : Render α :=
  match t with
  | .node _ rule _ _ => r.failAt t (.unimplemented (.ofRule rule))
  | .leaf _ _ => .malformed t

/-- Writes a node as its first child, whose type it gets. -/
def collapse (idiomatic : Bool) (t : Tree) : Render String := do
  match t.children with
  | child :: _ =>
    let text ← r.visit idiomatic child
    Render.setType t (← Render.typeOf child)
    return text
  | [] => .malformed t

/-- Writes all children of a node one after the other. -/
def concatenation (idiomatic : Bool) (t : Tree) : Render String := do
  let texts ← t.children.mapM (r.visit idiomatic)
  match t.children with
  | .node id rule span children :: _ =>
    Render.setType t (← Render.typeOf (.node id rule span children))
  | _ => Render.setType t .undefined
  return String.join texts

/-- A literal that is written from its text. -/
def simpleLiteral (t : Tree) (type : ValueType) : Render String := do
  Render.setType t type
  Render.use type
  match t.firstToken? with
  | some token => r.literal type token.text
  | none => .malformed t

/-- A string, whose tokens are joined. -/
def stringLiteral (t : Tree) : Render String := do
  Render.setType t .string
  Render.use .string
  let body := t.tokens.flatMap fun token => StringToken.body token.text.toList
  return r.target.writeString (String.ofList body)

/-- A collection written as an array. -/
def sequence (idiomatic : Bool) (t : Tree) (elements : List Tree) : Render String := do
  Render.setType t .array
  Render.use .array
  let texts ← elements.mapM (r.visit idiomatic)
  return r.target.writeArray texts

/-- The elements that the only child of a node lists. -/
def elements (t : Tree) : Render (List Tree) :=
  match t.children with
  | [] => pure []
  | listing :: _ =>
    if listing.subtrees.any (·.isOf .compFor) then r.failAt t (.unimplemented .comprehension)
    else pure listing.subtrees

/-- A document written as it is, keys and values alike. -/
def plainDocument (t : Tree) (entries : List Tree) : Render String := do
  Render.setType t .object
  Render.use .object
  let texts ← entries.mapM fun entry =>
    match entry.children with
    | key :: value :: _ => do return (← r.plain key, ← r.plain value)
    | _ => .malformed entry
  return r.target.writeDocument texts

/-- A document, in the idiomatic style as a query if it is one, or a set, which is written as an
array. -/
def objectLiteral (idiomatic : Bool) (t : Tree) : Render String := do
  let entries ← r.elements t
  match entries with
  | [] => r.plainDocument t entries
  | first :: _ =>
    if !first.isOf .keyValue then r.sequence idiomatic t entries
    else if idiomatic then do
      match ← r.query? (Shape.ofTree t).entries with
      | some text =>
        Render.setType t .object
        return text
      | none => r.plainDocument t entries
    else r.plainDocument t entries

/-- An array. -/
def arrayLiteral (idiomatic : Bool) (t : Tree) : Render String := do
  r.sequence idiomatic t (← r.elements t)

/-- A parenthesized expression, or else a tuple. -/
def setLiteral (idiomatic : Bool) (t : Tree) : Render String := do
  match ← r.elements t with
  | [element] =>
    let text ← r.visit idiomatic element
    Render.setType t (← Render.typeOf element)
    return "(" ++ text ++ ")"
  | elements => r.sequence idiomatic t elements

/-- Operands joined by a logical operator. The whole has the type of the first. -/
def logical (idiomatic : Bool) (t : Tree) (join : List String → String) : Render String := do
  let texts ← t.subtrees.mapM (r.visit idiomatic)
  match t.subtrees with
  | first :: _ =>
    Render.setType t (← Render.typeOf first)
    return join texts
  | [] => .malformed t

/-- A negation. -/
def negation (idiomatic : Bool) (t : Tree) : Render String := do
  match t.subtrees with
  | operand :: _ =>
    let text ← r.visit idiomatic operand
    Render.setType t .bool
    return r.target.negation text
  | [] => .malformed t

/-- Every second element, starting with the first. -/
def everySecond {α : Type} : List α → List α
  | [] => []
  | [a] => [a]
  | a :: _ :: rest => a :: everySecond rest

/-- The links of a chain of comparisons. -/
def links (compare : String → String → String → String) : List String → List String → List String
  | a :: b :: rest, op :: ops => compare op a b :: links compare (b :: rest) ops
  | _, _ => []

/-- A comparison. A chain of them is the conjunction of its links. -/
def comparison (idiomatic : Bool) (t : Tree) : Render String := do
  let operands ← (everySecond t.children).mapM (r.visit idiomatic)
  let operators := (everySecond t.children.tail).map fun op => String.join (op.tokens.map (·.text))
  Render.setType t .bool
  match links r.target.compare operands operators with
  | [link] => return link
  | links => return r.target.conjunction links

/-- Operations on what is written so far. -/
def operations (idiomatic : Bool) (text : String) : List Tree → Render String
  | .leaf _ op :: operand :: rest => do
    let second ← r.visit idiomatic operand
    operations idiomatic (r.target.operate op.text text second) rest
  | _ => return text

/-- Operands joined by operators, from left to right. The whole has the type of the first. -/
def operation (idiomatic : Bool) (t : Tree) : Render String := do
  match t.children with
  | first :: rest =>
    let text ← r.visit idiomatic first
    let text ← r.operations idiomatic text rest
    Render.setType t (← Render.typeOf first)
    return text
  | [] => .malformed t

/-- An operand with a sign. -/
def sign (idiomatic : Bool) (t : Tree) : Render String := do
  match t.children with
  | [.leaf _ sign, operand] =>
    let text ← r.visit idiomatic operand
    Render.setType t (← Render.typeOf operand)
    return sign.text ++ text
  | _ => .malformed t

/-- A power. -/
def power (idiomatic : Bool) (t : Tree) : Render String := do
  match t.subtrees with
  | [base, exponent] =>
    let text := r.target.power (← r.visit idiomatic base) (← r.visit idiomatic exponent)
    Render.setType t (← Render.typeOf base)
    return text
  | _ => .malformed t

/-- A name. -/
def identifier (t : Tree) : Render String := do
  match t.firstToken? with
  | some token =>
    match ValueType.ofSymbol? token.text with
    | some type =>
      Render.setType t type
      Render.use type
      return (r.target.symbol type).getD token.text
    | none => .fail (.undefinedSymbol token.text)
  | none => .malformed t

/-- A member of an expression. Types whose members are all known have no others. -/
def memberAccess (idiomatic : Bool) (t : Tree) : Render String := do
  match t.children with
  | [owner, .leaf _ name] =>
    let text ← r.visit idiomatic owner
    let type ← Render.typeOf owner
    match type.member? name.text with
    | some member =>
      Render.setType t member
      return r.target.writeMember member text name.text
    | none =>
      if type.isDomain then r.failAt t (.unknownMember name.text type.name)
      else do
        Render.setType t .undefined
        return text ++ "." ++ name.text
  | _ => .malformed t

end Renderer

end QueryScribe
