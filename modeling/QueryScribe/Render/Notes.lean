import QueryScribe.Query.Refusal
import QueryScribe.Syntax.Tree
import QueryScribe.Types.Treatment
import QueryScribe.Usage
import Std.Data.TreeMap

/-!
# Notes

While a tree is written, notes are taken beside it: what has been used, the type of each node, and
the type that a node had before it was written as another. The log tells what was done; unlike the
notes it is never taken back. The journal also holds the style in which documents are written.
-/

namespace QueryScribe

/-- What is known about the nodes of a tree, by their numbers, and what they use. -/
structure Notes where
  usage : Usage := {}
  types : Std.TreeMap Nat ValueType := {}
  ownTypes : Std.TreeMap Nat ValueType := {}

namespace Notes

/-- Notes the type of a node, unless it has one. -/
def setType (n : Notes) (t : Tree) (type : ValueType) : Notes :=
  { n with types := n.types.insertIfNew t.id type }

/-- Notes that a node is written as another type than its own. The first of its own types is
kept. -/
def cast (n : Notes) (t : Tree) (type own : ValueType) : Notes :=
  { n with
    types := n.types.insert t.id type
    ownTypes := n.ownTypes.insertIfNew t.id own }

/-- The type of a node, or else of the only child of a node. -/
def type? (n : Notes) : Tree → Option ValueType
  | .leaf id _ => n.types[id]?
  | .node id _ _ [child] =>
    match n.types[id]? with
    | some type => some type
    | none => n.type? child
  | .node id _ _ _ => n.types[id]?

/-- The type that a node had before it was written as another. -/
def ownType? (n : Notes) (t : Tree) : Option ValueType :=
  match n.ownTypes[t.id]? with
  | some type => some type
  | none => n.type? t

/-- Notes the use of a code. -/
def touch (n : Notes) (code : Int) : Notes := { n with usage := n.usage.touch code }

/-- Notes the use of a name under a code. -/
def add (n : Notes) (code : Int) (name : String) : Notes :=
  { n with usage := n.usage.add code name }

end Notes

/-- What is logged. -/
inductive Event
  /-- A call got a treatment of its own. -/
  | call (callee : ValueType) (treatment : Treatment)
  /-- A document is no query and is written plainly. -/
  | plainDocument (reason : Refusal)
deriving DecidableEq, Repr

/-- The notes, the log with its last event first, and the style in which documents are written. -/
structure Journal where
  notes : Notes := {}
  log : List Event := []
  /-- Whether documents become queries where they can. -/
  idiomatic : Bool := true

/-- An action that takes notes. What was noted before a fault stays. -/
abbrev Render := ExceptT Fault (StateM Journal)

namespace Render

/-- Takes notes. -/
def note (f : Notes → Notes) : Render Unit := modify fun j => { j with notes := f j.notes }

/-- The notes so far. -/
def notes : Render Notes := return (← get).notes

/-- The style at present. -/
def idiomatic : Render Bool := return (← get).idiomatic

/-- An action in a style. However it ends, the style is afterwards what it was before. -/
def inStyle {α : Type} (style : Bool) (action : Render α) : Render α := do
  let saved ← idiomatic
  modify fun j => { j with idiomatic := style }
  tryFinally action (modify fun j => { j with idiomatic := saved })

/-- Logs an event. -/
def log (e : Event) : Render Unit := modify fun j => { j with log := e :: j.log }

/-- Fails for a cause without a place. -/
def fail {α : Type} (cause : Cause) : Render α := throw (.ofCause cause)

/-- The value, or the failure for its cause. -/
def ofCause {α : Type} : Except Cause α → Render α
  | .ok a => pure a
  | .error cause => fail cause

/-- The value of a conversion. -/
def ofConversion {α : Type} : Except ConversionFault α → Render α
  | .ok a => pure a
  | .error f => throw (.conversion f)

/-- The value, or the fault. -/
def ofFault {α : Type} : Except Fault α → Render α
  | .ok a => pure a
  | .error fault => throw fault

/-- The type with a name. -/
def typeNamed (name : String) : Render ValueType :=
  match ValueType.ofName? name with
  | some type => pure type
  | none => throw (.unknownType name)

/-- Stops at a node that lacks children. -/
def malformed {α : Type} (t : Tree) : Render α := throw (.malformed t.label)

/-- The type of a node. -/
def typeOf (t : Tree) : Render ValueType := do
  match (← notes).type? t with
  | some type => pure type
  | none => fail (.untypedNode t.label)

/-- The type that a node had before it was written as another. -/
def ownTypeOf (t : Tree) : Render ValueType := do
  match (← notes).ownType? t with
  | some type => pure type
  | none => fail (.untypedNode t.label)

/-- Notes the type of a node, unless it has one. -/
def setType (t : Tree) (type : ValueType) : Render Unit := note (·.setType t type)

/-- Notes the use of a code. -/
def touch (code : Int) : Render Unit := note (·.touch code)

/-- Notes the use of a type. -/
def use (type : ValueType) : Render Unit := touch type.code

end Render

end QueryScribe
