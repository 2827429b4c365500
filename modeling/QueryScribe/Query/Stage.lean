import QueryScribe.Query.Filter

/-!
# Stages

A stage of an aggregation is a document with one operator. A facet holds pipelines, whose documents
are stages again.
-/

namespace QueryScribe.Builder

variable (b : Builder)

/-- The members of a lookup, in the order of the arguments. -/
def lookupFields : List String := ["from", "localField", "foreignField", "as"]

/-- The members of a lookup along a graph. -/
def graphFields : List String := ["from", "startWith", "connectFromField", "connectToField", "as"]

/-- The members of a lookup along a graph that may be left out. -/
def graphOptions : List String := ["maxDepth", "depthField", "restrictSearchWithMatch"]

/-- The accumulator of a document that holds one and nothing else. -/
def accumulator? (s : Shape) : Option (String × Shape) :=
  match s.operators? with
  | some [(op, operand)] =>
    if (b.helpers.find? .accumulators op).isSome then some (op, operand) else none
  | _ => none

/-- A field that accumulates an expression. -/
def accumulation (keyTree : Tree) (op : String) (operand : Shape) : Build Call := do
  let field ← b.field keyTree
  b.call .accumulators op [field, ← b.plain operand.tree]

/-- The option of a lookup along a graph, none for its other members. -/
def graphOption (name : String) (s : Shape) : Build (List Call) := do
  if name = "maxDepth" then return [.option name (← b.integer s.tree)]
  else if name = "depthField" then return [.option name (← b.string s.tree)]
  else if name = "restrictSearchWithMatch" then return [.option name (← b.filter s)]
  else return []

/-- The arguments of a lookup along a graph. -/
def graphLookup (s : Shape) : Build (List Call) := do
  let members ← ofRefusal (members graphFields graphOptions s.entries)
  let origin ← b.string (← member "from" members).tree
  let start ← b.plain (← member "startWith" members).tree
  let connectFrom ← b.string (← member "connectFromField" members).tree
  let connectTo ← b.string (← member "connectToField" members).tree
  let output ← b.string (← member "as" members).tree
  let args := [origin, start, connectFrom, connectTo, output]
  let options ← members.mapM fun (name, value) => b.graphOption name value
  match options.flatten with
  | [] => return args
  | options => return args ++ [← b.call .model "GraphLookupOptions" options]

/-- The arguments of a group: its identifier, then its accumulations. -/
def group (s : Shape) : Build (List Call) := do
  match ← entries s with
  | (keyTree, id) :: rest =>
    if keyTree.stringKey? ≠ some "_id" then refuse .groupId
    else do
      let id ← b.plain id.tree
      let fields ← rest.mapM fun (keyTree, expression) =>
        match b.accumulator? expression with
        | some (op, operand) => b.accumulation keyTree op operand
        | none => refuse .groupField
      return id :: fields
  | [] => refuse .emptyDocument

/-- What a projection does with its fields. -/
structure Projection where
  included : List Call := []
  excluded : List Call := []
  withoutId : Bool := false

/-- What a projection does with one more field. Leaving out the identifier is no exclusion. -/
def projectField (p : Projection) (keyTree : Tree) (flag : Shape) : Build Projection := do
  let keep ← b.truth flag.tree
  let key ← key keyTree
  if key = "_id" && !keep then return { p with withoutId := true }
  else
    let field ← b.field keyTree
    if keep then return { p with included := p.included ++ [field] }
    else return { p with excluded := p.excluded ++ [field] }

/-- A call with fields, if there are any. -/
def fieldsCall (name : String) : List Call → Build (List Call)
  | [] => return []
  | fields => do return [← b.call .projections name fields]

/-- A projection. -/
def projection (s : Shape) : Build Call := do
  let p ← (← entries s).foldlM (fun p (keyTree, flag) => b.projectField p keyTree flag) {}
  let included ← b.fieldsCall "include" p.included
  let excluded ← b.fieldsCall "exclude" p.excluded
  let withoutId ← if p.withoutId then do pure [← b.call .projections "excludeId" []] else pure []
  match included ++ excluded ++ withoutId with
  | [part] => return part
  | parts => b.call .projections "fields" parts

/-- The helper for a sort direction. -/
def direction (s : Shape) : Build String := do
  match s.operators? with
  | some [(op, operand)] =>
    if op = "$meta" && operand.tree.stringKey? = some "textScore" then return "metaTextScore"
    else refuse .sortMeta
  | some _ => refuse .sortMeta
  | none =>
    let value ← b.number s.tree
    if value.equals 1 then return "ascending"
    else if value.equals (-1) then return "descending"
    else
      let shown ← (Render.ofConversion value.write : Render String)
      refuse (.sortDirection shown)

/-- A sort by one or more fields. -/
def sort (s : Shape) : Build Call := do
  let orders ← (← entries s).mapM fun (keyTree, order) => do
    let field ← b.field keyTree
    b.call .sorts (← b.direction order) [field]
  match orders with
  | [order] => return order
  | orders => b.call .sorts "orderBy" orders

/-- The arguments of a stage other than a facet. -/
def simpleStage (stage : String) (s : Shape) : Build (List Call) := do
  if ["$count", "$out", "$sortByCount", "$unwind"].contains stage then return [← b.string s.tree]
  else if stage = "$match" then return [← b.filter s]
  else if stage = "$limit" || stage = "$skip" then return [← b.integer s.tree]
  else if stage = "$sample" then
    let members ← ofRefusal (members ["size"] [] s.entries)
    return [← b.integer (← member "size" members).tree]
  else if stage = "$lookup" then
    let members ← ofRefusal (members lookupFields [] s.entries)
    lookupFields.mapM fun name => do b.string (← member name members).tree
  else if stage = "$graphLookup" then b.graphLookup s
  else if stage = "$group" then b.group s
  else if stage = "$project" then return [← b.projection s]
  else if stage = "$sort" then return [← b.sort s]
  else if stage = "$replaceRoot" then
    let members ← ofRefusal (members ["newRoot"] [] s.entries)
    return [← b.plain (← member "newRoot" members).tree]
  else refuse (.noStage stage)

/-- Whether a key is that of a stage. -/
def isStage (key : String) : Bool := (b.helpers.find? .aggregates key).isSome

mutual

/-- A stage with its operand. -/
def stage (name : String) (s : Shape) : Build Call := do
  if name = "$facet" then
    match s with
    | .document _ entries => do b.call .aggregates name (← facets entries)
    | _ => refuse .emptyDocument
  else do b.call .aggregates name (← b.simpleStage name s)

/-- The facets of entries. -/
def facets : List (Tree × Shape) → Build (List Call)
  | [] => return []
  | (keyTree, pipeline) :: rest => do
    let first ← facet keyTree pipeline
    return first :: (← facets rest)

/-- One facet, which names a pipeline. -/
def facet (keyTree : Tree) : Shape → Build Call
  | .array _ items => do
    let stages ← pipeline items
    let field ← b.field keyTree
    b.call .model "Facet" [field, ← list stages]
  | _ => refuse .noPipeline

/-- The stages of a pipeline. -/
def pipeline : List Shape → Build (List Call)
  | [] => return []
  | first :: rest => do
    let first ← stageDocument first
    return first :: (← pipeline rest)

/-- A document that has to be one stage. -/
def stageDocument : Shape → Build Call
  | .document _ [(keyTree, operand)] =>
    match keyTree.stringKey? with
    | some key => if b.isStage key then stage key operand else refuse .pipelineStage
    | none => refuse .pipelineStage
  | _ => refuse .pipelineStage

end

/-- A document with one entry: a stage, a geometry, an accumulation, or else a filter. -/
def singleEntry (keyTree : Tree) (value : Shape) : Build Call :=
  let filter := do b.conjunction (← b.clauses [(keyTree, value)])
  match keyTree.stringKey? with
  | some key =>
    if b.isStage key then b.stage key value
    else if key = "$geometry" then do return (← b.geometry value).2
    else match b.accumulator? value with
      | some (op, operand) => b.accumulation keyTree op operand
      | none => filter
  | none => filter

/-- The query of a document with entries. -/
def query : List (Tree × Shape) → Build Call
  | [(keyTree, value)] => b.singleEntry keyTree value
  | entries => do b.conjunction (← b.clauses entries)

end QueryScribe.Builder
