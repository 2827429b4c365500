import QueryScribe.Query.Geometry

/-!
# Filters

A filter is a document of clauses. A clause combines other filters, or asks something of a field:
that it equals a value, or what the operators of a document say. All clauses have to hold.
-/

namespace QueryScribe.Builder

variable (b : Builder)

/-- Operators that combine an array of filters. -/
def isLogical (key : String) : Bool := ["$and", "$or", "$nor"].contains key

/-- Operators that take a field and a value. -/
def isFieldOperator (op : String) : Bool :=
  ["$eq", "$ne", "$gt", "$gte", "$lt", "$lte", "$in", "$nin", "$all", "$size", "$exists", "$type",
   "$bitsAllClear", "$bitsAllSet", "$bitsAnyClear", "$bitsAnySet"].contains op

/-- The distances that may limit nearness, in the order of the arguments. -/
def nearOptions : List String := ["$maxDistance", "$minDistance"]

/-- Clauses that all have to hold. -/
def conjunction : List Call → Build Call
  | [clause] => pure clause
  | clauses => b.call .filters "$and" clauses

/-- The search of a text. -/
def textSearch (s : Shape) : Build Call := do
  let members ← ofRefusal (members ["$search"] [] s.entries)
  b.plain (← member "$search" members).tree

/-- A field near a point. -/
def near (op : String) (field : Call) (s : Shape) : Build Call := do
  let members ← ofRefusal (members ["$geometry"] nearOptions s.entries)
  let (kind, point) ← b.geometry (← member "$geometry" members)
  if kind ≠ "Point" then refuse (.noPoint op kind)
  else do
    let distances ← nearOptions.mapM fun name =>
      match members.lookup name with
      | some distance => b.double distance.tree
      | none => pure .absent
    b.call .filters op (field :: point :: distances)

/-- A field within a shape of the plane. -/
def planeShape (field : Call) (shape : String) (s : Shape) : Build Call := do
  if shape = "$box" then
    let (lowerLeft, upperRight) ← twoItems s
    let first ← b.coordinates lowerLeft
    let second ← b.coordinates upperRight
    b.call .filters shape (field :: (first ++ second))
  else if shape = "$polygon" then
    let points ← (← items s).mapM fun point => do list (← b.coordinates point)
    b.call .filters shape [field, ← list points]
  else if shape = "$center" || shape = "$centerSphere" then
    let (center, radius) ← twoItems s
    let center ← b.coordinates center
    b.call .filters shape (field :: (center ++ [← b.double radius.tree]))
  else refuse (.unknownShape shape)

/-- A field within or across a shape. -/
def geoClause (op : String) (field : Call) (s : Shape) : Build Call :=
  match s.operators? with
  | some [(shape, value)] =>
    if shape = "$geometry" then do
      let (_, geometry) ← b.geometry value
      b.call .filters op [field, geometry]
    else if op ≠ "$geoWithin" then refuse (.onlyGeometry op)
    else b.planeShape field shape value
  | _ => refuse (.noShape op)

/-- A field that matches a regular expression, with options if there are any. -/
def regexClause (field : Call) (options : Option Tree) (s : Shape) : Build Call := do
  let pattern ← b.plain s.tree
  let options ← match options with
    | some t => do pure [← b.plain t]
    | none => pure []
  b.call .filters "$regex" (field :: pattern :: options)

/-- A field with a remainder. -/
def modClause (field : Call) (s : Shape) : Build Call := do
  let (divisor, remainder) ← twoItems s
  b.call .filters "$mod" [field, ← b.plain divisor.tree, ← b.plain remainder.tree]

/-- What operators of one document may ask of each other. -/
structure Siblings where
  /-- The last options among them. -/
  options : Option Tree
  /-- Whether there is a regular expression among them. -/
  hasRegex : Bool

/-- What the operators of a document may ask of each other. -/
def Siblings.of (operators : List (String × Shape)) : Siblings where
  options := (operators.reverse.lookup "$options").map (·.tree)
  hasRegex := operators.any fun (op, _) => op == "$regex"

/-- A clause for an operator that takes no filter. -/
def plainClause (field : Call) (siblings : Siblings) (op : String) (s : Shape) : Build Call :=
  if isFieldOperator op then do b.call .filters op [field, ← b.plain s.tree]
  else if op = "$regex" then b.regexClause field siblings.options s
  else if op = "$mod" then b.modClause field s
  else if op = "$geoWithin" || op = "$geoIntersects" then b.geoClause op field s
  else if op = "$near" || op = "$nearSphere" then b.near op field s
  else refuse (.noFilter op)

mutual

/-- The filter of a document. -/
def filter : Shape → Build Call
  | .document _ entries => do b.conjunction (← clauses entries)
  | _ => refuse .emptyFilter

/-- The clauses of entries. -/
def clauses : List (Tree × Shape) → Build (List Call)
  | [] => return []
  | (key, value) :: rest => do
    let first ← entryClauses key value
    return first ++ (← clauses rest)

/-- The clauses of one entry. -/
def entryClauses (keyTree : Tree) (s : Shape) : Build (List Call) := do
  let key ← key keyTree
  if isLogical key then
    match s with
    | .array _ (first :: rest) => do
      let first ← filter first
      return [← b.call .filters key (first :: (← filters rest))]
    | _ => refuse (.noDocuments key)
  else if key = "$expr" || key = "$where" then do
    return [← b.call .filters key [← b.plain s.tree]]
  else if key = "$text" then do
    return [← b.call .filters key [← b.textSearch s]]
  else if Shape.isOperator key then refuse (.noFilter key)
  else do
    let field ← b.field keyTree
    match s with
    | .document _ entries =>
      match Shape.operatorsOf? entries with
      | some operators => operatorClauses field (.of operators) entries
      | none => do return [← b.call .filters "eq" [field, ← b.plain s.tree]]
    | _ => do return [← b.call .filters "eq" [field, ← b.plain s.tree]]

/-- The filters of documents. -/
def filters : List Shape → Build (List Call)
  | [] => return []
  | first :: rest => do
    let first ← filter first
    return first :: (← filters rest)

/-- The clauses for the operators of a document. Options are no clause of their own. -/
def operatorClauses (field : Call) (siblings : Siblings) : List (Tree × Shape) → Build (List Call)
  | [] => return []
  | (keyTree, operand) :: rest => do
    let op ← key keyTree
    if op = "$options" then
      if siblings.hasRegex then operatorClauses field siblings rest else refuse .loneOptions
    else do
      let first ← operatorClause field siblings op operand
      return first :: (← operatorClauses field siblings rest)

/-- The clause for an operator. -/
def operatorClause (field : Call) (siblings : Siblings) (op : String) (s : Shape) : Build Call :=
  if op = "$not" then
    match s with
    | .document _ entries =>
      match Shape.operatorsOf? entries with
      | some operators => do
        let clause ← b.conjunction (← operatorClauses field (.of operators) entries)
        b.call .filters op [clause]
      | none => refuse .noOperators
    | _ => refuse .noOperators
  else if op = "$elemMatch" then
    match s with
    | .document _ entries => do
      b.call .filters op [field, ← b.conjunction (← clauses entries)]
    | _ => refuse .emptyFilter
  else b.plainClause field siblings op s

end

end QueryScribe.Builder
