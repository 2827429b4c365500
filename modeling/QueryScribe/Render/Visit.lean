import QueryScribe.Render.Expression

/-!
# Writing trees

A node is written by its rule. A node of a rule without a form of its own is written as its only
child if it passes through, else as all of its children.
-/

namespace QueryScribe

namespace Renderer

variable (r : Renderer)

/-- A program: its statements on lines of their own. -/
def program (idiomatic : Bool) (t : Tree) : Render String := do
  let texts ← t.subtrees.mapM (r.visit idiomatic)
  Render.setType t .undefined
  return "\n".intercalate texts ++ r.target.endOfProgram

/-- The statements of one line. -/
def statements (idiomatic : Bool) (t : Tree) : Render String := do
  let texts ← t.subtrees.mapM fun s => do
    return (← r.visit idiomatic s) ++ r.target.endOfStatement
  match t.children with
  | first :: _ =>
    Render.setType t (← Render.typeOf first)
    return "\n".intercalate texts
  | [] => .malformed t

/-- A node that is supported only as long as it has a single child. -/
def onlyChild (idiomatic : Bool) (t : Tree) : Render String :=
  match t.children with
  | _ :: second :: _ => r.unsupported second
  | _ => r.collapse idiomatic t

/-- A node that passes through, or else is written in another way. -/
def unlessPassThrough (idiomatic : Bool) (t : Tree) (other : Render String) : Render String :=
  if t.isPassThrough then r.collapse idiomatic t else other

/-- Writes a node of a rule. -/
def ofRule (idiomatic : Bool) (t : Tree) (rule : Rule) : Render String :=
  match rule with
  | .fileInput => r.program idiomatic t
  | .simpleStmt => r.statements idiomatic t
  | .exprStmt | .argument => r.onlyChild idiomatic t
  | .testListStar => r.unlessPassThrough idiomatic t (r.sequence idiomatic t t.subtrees)
  | .stringLiteral => r.stringLiteral t
  | .objectLiteral => r.objectLiteral idiomatic t
  | .arrayLiteral => r.arrayLiteral idiomatic t
  | .setLiteral => r.setLiteral idiomatic t
  | .orTest => r.unlessPassThrough idiomatic t (r.logical idiomatic t r.target.disjunction)
  | .andTest => r.unlessPassThrough idiomatic t (r.logical idiomatic t r.target.conjunction)
  | .notTest => r.unlessPassThrough idiomatic t (r.negation idiomatic t)
  | .comparison => r.unlessPassThrough idiomatic t (r.comparison idiomatic t)
  | .expr | .xorExpr | .andExpr | .shiftExpr | .arithExpr | .term =>
    r.unlessPassThrough idiomatic t (r.operation idiomatic t)
  | .factor => r.unlessPassThrough idiomatic t (r.sign idiomatic t)
  | .power => r.unlessPassThrough idiomatic t (r.power idiomatic t)
  | .functionCall => r.call idiomatic t
  | .attributeAccess => r.memberAccess idiomatic t
  | .indexAccess => r.failAt t (.unimplemented .indexing)
  | .identifier => r.identifier t
  | .integerLiteral | .imagLiteral => r.simpleLiteral t .long
  | .floatLiteral => r.simpleLiteral t .decimal
  | .hexLiteral => r.simpleLiteral t .hex
  | .octLiteral => r.simpleLiteral t .octal
  | .binLiteral => r.simpleLiteral t .binary
  | .booleanLiteral => r.simpleLiteral t .bool
  | .noneLiteral => r.simpleLiteral t .null
  | .delStmt | .passStmt | .flowStmt | .importStmt | .globalStmt | .nonlocalStmt | .assertStmt
  | .ifStmt | .whileStmt | .forStmt | .tryStmt | .withStmt | .funcDef | .classDef | .decorated
  | .asyncStmt | .starExpr | .starArgument | .inlineIf | .lambdaDef | .ellipsisAtom | .annAssign
  | .augAssign | .assignStmt | .compFor | .compIf | .keywordArgument => r.unsupported t
  | _ => r.unlessPassThrough idiomatic t (r.concatenation idiomatic t)

/-- Writes a node, over a renderer for the nodes below it. -/
def step (idiomatic : Bool) (t : Tree) : Render String :=
  match t with
  | .leaf _ token => return token.text
  | .node _ rule _ _ => r.ofRule idiomatic t rule

/-- A renderer for trees of at most `n` levels. Trees of fewer levels are left to the renderer for
these, so that a tree is written alike below whatever it stands. A visit puts its style into the
journal for as long as it takes, and what is written of the node goes by the style found there. -/
def within (target : Target) (source : Source) : Nat → Renderer
  | 0 => ⟨target, source, fun _ t => .malformed t⟩
  | n + 1 => ⟨target, source, fun style t =>
      if t.height ≤ n then (within target source n).visit style t
      else Render.inStyle style do (within target source n).step (← Render.idiomatic) t⟩

/-- A renderer for a tree. -/
def forTree (target : Target) (source : Source) (t : Tree) : Renderer :=
  within target source t.height

end Renderer

/-- Writes a node of a source for a target. -/
def render (target : Target) (source : Source) (style : Bool) (t : Tree) : Render String :=
  (Renderer.forTree target source t).visit style t

end QueryScribe
