import QueryScribe.Literal.StringToken
import QueryScribe.Literal.Value
import QueryScribe.Render.Notes
import QueryScribe.Render.Signed
import QueryScribe.Target.Basic

/-!
# Renderers

A renderer writes the nodes below a node. Whatever is written of a node is defined over a renderer
for the nodes below it. Documents are written as queries only in the idiomatic style, and each visit
is made in a style.
-/

namespace QueryScribe

/-- The text that was read, and the characters that the escapes in it may call by their names. -/
structure Source where
  text : List Char
  names : CharacterNames
deriving Inhabited

/-- How the nodes of a source are written for a target. -/
structure Renderer where
  target : Target
  source : Source
  /-- Writes a node in a style. -/
  visit : Bool → Tree → Render String

namespace Renderer

variable (r : Renderer)

/-- Fails at a node. -/
def failAt {α : Type} (t : Tree) (cause : Cause) : Render α :=
  throw (.failure ⟨cause, some (t.place r.source.text)⟩)

/-- Writes a node plainly, whatever the style around it. -/
def plain (t : Tree) : Render String := r.visit false t

/-- A literal of a type. -/
def literal (type : ValueType) (text : String) : Render String :=
  .ofFault (r.target.writeLiteral type text)

/-- The value of a string literal. -/
def stringValue (t : Tree) : Render String := do
  let core := t.core
  if core.isOf .stringLiteral then
    match StringToken.valueOf? r.source.names (core.tokens.map (·.text)) with
    | some value => pure (StringToken.toText value)
    | none => .fail .stringLiteral
  else .fail (.stringExpected core.label)

/-- The value of a node from its view as a number with signs. -/
def signedValue (t : Tree) : Signed → Render Number
  | .literal _ core text => do
    let own ← Render.ownTypeOf core
    .ofCause (Literal.number text own)
  | .signed _ sign operand view => do
    let value ← signedValue operand view
    if sign = "-" then pure value.neg
    else if sign = "~" then do
      let n ← Render.ofConversion value.toInt
      pure (.int (-n - 1))
    else pure value
  | .other _ => .fail (.numberExpected (String.ofList (t.text r.source.text)))

/-- The value of a node that is a number with signs. -/
def numericValue (t : Tree) : Render Number := r.signedValue t (.ofTree t)

/-- Notes that nodes are written as a type. -/
def castAll (passed : List Tree) (type own : ValueType) : Render Unit :=
  .note fun n => passed.foldl (fun n t => n.cast t type own) n

/-- Writes a node, from its view as a number with signs, as if it were of a numeric type. Literals
are read anew in the type that they were written as; anything but a literal keeps its own form. -/
def castSigned (idiomatic : Bool) (expected : ValueType) (t : Tree) : Signed → Render String
  | .literal passed _ text => do
    let own ← Render.ownTypeOf t
    let value ← Render.ofCause (Literal.number text own)
    Render.use expected
    let text ← Render.ofConversion (Literal.canonical value expected)
    let written ← r.literal expected text
    castAll passed expected own
    return written
  | .signed passed sign operand view => do
    let own ← Render.ownTypeOf t
    let written ← castSigned idiomatic expected operand view
    castAll passed expected own
    return sign ++ written
  | .other passed => do
    let own ← Render.ownTypeOf t
    let written ← r.visit idiomatic t
    castAll passed expected own
    return written

/-- Writes a numeric node as if it were of a numeric type. -/
def castTo (idiomatic : Bool) (expected : ValueType) (t : Tree) : Render String :=
  r.castSigned idiomatic expected t (.ofTree t)

/-- Writes an argument for a slot, or gives none if the slot does not accept it. A slot for any
number takes numbers as they are; other slots for numbers have them written as the first type they
name. -/
def cast? (idiomatic : Bool) (slot : Slot) (t : Tree) : Render (Option String) := do
  let text ← r.visit idiomatic t
  let type ← Render.typeOf t
  if slot.accepts type || slot.accepts .numeric && (type.isNumeric || type.isNumericWrapper) then
    return some text
  else if type.isNumeric then
    match slot.numericName? with
    | some name => return some (← r.castTo idiomatic (← Render.typeNamed name) t)
    | none => return none
  else return none

/-- Writes the arguments of a call from an index on. -/
def argumentsFrom (idiomatic : Bool) (callee : String) (index : Nat) :
    List Slot → List Tree → Render (List String)
  | [], _ => return []
  | slot :: _, [] => if slot.mayBeAbsent then return [] else .fail (.tooFewArguments callee)
  | slot :: slots, t :: ts => do
    match ← r.cast? idiomatic slot t with
    | some text => return text :: (← argumentsFrom idiomatic callee (index + 1) slots ts)
    | none =>
      let type ← Render.typeOf t
      .fail (.argumentType callee slot.labels type.name index)

/-- Writes the arguments of a call after their number was checked. -/
def arguments (idiomatic : Bool) (callee : String) (slots : List Slot) (ts : List Tree) :
    Render (List String) :=
  match slots, ts with
  | [], [] => return []
  | slot :: _, [] => if slot.mayBeAbsent then return [] else .fail (.noArguments callee)
  | _, _ :: _ =>
    if slots.length < ts.length then .fail (.tooManyArguments callee slots.length ts.length)
    else r.argumentsFrom idiomatic callee 0 slots ts

end Renderer

end QueryScribe
