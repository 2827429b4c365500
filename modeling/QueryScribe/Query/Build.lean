import QueryScribe.Query.Call
import QueryScribe.Query.Shape
import QueryScribe.Render.Renderer

/-!
# Building queries

A query is built while its values are written. Building stops at the first refusal; faults of the
values go on as they are.
-/

namespace QueryScribe

/-- An action that may refuse what it is given. -/
abbrev Build := ExceptT Refusal Render

/-- A renderer for values and the helpers of its target. -/
structure Builder where
  renderer : Renderer
  helpers : Helpers

namespace Builder

variable (b : Builder)

/-- Refuses. -/
def refuse {α : Type} (reason : Refusal) : Build α := throw reason

/-- The value, or the refusal. -/
def ofRefusal {α : Type} : Except Refusal α → Build α
  | .ok a => pure a
  | .error reason => refuse reason

/-- The call of a helper, whose use is noted. -/
def call (family : Family) (key : String) (args : List Call) : Build Call :=
  match b.helpers.find? family key with
  | some helper => do
    Render.note (·.add helper.family.code helper.name)
    return .helper helper args
  | none => refuse (.noHelper key)

/-- A list, whose use is noted. -/
def list (items : List Call) : Build Call := do
  Render.use .array
  return .list items

/-- A node, written plainly. -/
def plain (t : Tree) : Build Call := do
  return .text (← b.renderer.plain t)

/-- The text of a key, which has to be a string. -/
def key (t : Tree) : Build String :=
  match t.stringKey? with
  | some key => pure key
  | none => refuse .keyNotString

/-- A key, which has to be a string, written plainly. -/
def field (t : Tree) : Build Call := do
  discard (key t)
  b.plain t

/-- A node, which has to be a string, written plainly. -/
def string (t : Tree) : Build Call := do
  let call ← b.plain t
  let type ← Render.typeOf t
  if type = .string then return call else refuse (.noString type)

/-- A node written as a number of a type. -/
def numeric (type : ValueType) (t : Tree) : Build Call := do
  match ← b.renderer.cast? false (.of [type]) t with
  | some text => return .text text
  | none => refuse (.noNumber (← Render.typeOf t))

/-- A node written as an integer. -/
def integer (t : Tree) : Build Call := b.numeric .integer t

/-- A node written as a double. -/
def double (t : Tree) : Build Call := b.numeric .decimal t

/-- The value of a node that has to be a number. The node is also written, for the notes. -/
def number (t : Tree) : Build Number := do
  discard (b.plain t)
  ExceptT.mk (tryCatch (Except.ok <$> b.renderer.numericValue t) fun fault =>
    match fault with
    | .failure f => if f.kind = .evaluation then return .error (.noValue f.cause) else throw fault
    | _ => throw fault)

/-- Whether a flag is set: a boolean, or a number other than zero. -/
def truth (t : Tree) : Build Bool := do
  let core := t.core
  if core.isOf .booleanLiteral then
    return (core.firstToken?.map (·.text)) == some "True"
  else return (← b.number t).isTrue

/-- Entries of a document by key. A key that comes again keeps its place and changes its value. -/
def putMember {α : Type} (key : String) (value : α) : List (String × α) → List (String × α)
  | [] => [(key, value)]
  | (k, v) :: rest => if k = key then (k, value) :: rest else (k, v) :: putMember key value rest

/-- Entries of a document by key, after those that came before. -/
def keyed {α : Type} : List (Tree × α) → List (String × α) → Except Refusal (List (String × α))
  | [], members => .ok members
  | (key, value) :: rest, members =>
    match key.stringKey? with
    | some key => keyed rest (putMember key value members)
    | none => .error .keyNotString

/-- The entries of a document whose keys are those required and some of those allowed. -/
def members {α : Type} (required allowed : List String) (entries : List (Tree × α)) :
    Except Refusal (List (String × α)) := do
  if entries.isEmpty then throw .emptyDocument
  let members ← keyed entries []
  let keys := members.map (·.1)
  let missing := required.filter (!keys.contains ·)
  let unexpected := keys.filter fun key => !required.contains key && !allowed.contains key
  if missing.isEmpty && unexpected.isEmpty then return members
  else throw (.keys missing unexpected)

/-- The value of a required member. -/
def member {α : Type} (key : String) (members : List (String × α)) : Build α :=
  match members.lookup key with
  | some value => pure value
  | none => refuse (.keys [key] [])

/-- The entries of a document, of which there has to be one. -/
def entries (s : Shape) : Build (List (Tree × Shape)) :=
  if s.entries.isEmpty then refuse .emptyDocument else pure s.entries

/-- The items of an array, of which there has to be one. -/
def items (s : Shape) : Build (List Shape) :=
  if s.items.isEmpty then refuse .arrayShape else pure s.items

/-- The two items of an array. -/
def twoItems (s : Shape) : Build (Shape × Shape) :=
  match s.items with
  | [first, second] => pure (first, second)
  | _ => refuse .arrayShape

end Builder

end QueryScribe
