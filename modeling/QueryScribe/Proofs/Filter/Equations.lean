import QueryScribe.Query.Filter

/-!
# Filters by the form of their document

The functions that build a filter go down a document together. Here each has one equation for each
form of what it is given, with the cases of an entry and of an operator under names of their own, so
that no proof has to open the functions again.
-/

namespace QueryScribe.Builder

variable (b : Builder)

/-- The clause of an operator that combines the filters of an array. -/
def logicalClauses (key : String) : Shape → Build (List Call)
  | .array _ (first :: rest) => do
    let first ← b.filter first
    return [← b.call .filters key (first :: (← b.filters rest))]
  | _ => refuse (.noDocuments key)

/-- The clauses about a field: those of its operators, or that it equals a value. -/
def fieldClauses (field : Call) : Shape → Build (List Call)
  | .document tree entries =>
    match Shape.operatorsOf? entries with
    | some operators => b.operatorClauses field (.of operators) entries
    | none => do return [← b.call .filters "eq" [field, ← b.plain tree]]
  | s => do return [← b.call .filters "eq" [field, ← b.plain s.tree]]

/-- The clause of a negation of operators. -/
def notClause (field : Call) : Shape → Build Call
  | .document _ entries =>
    match Shape.operatorsOf? entries with
    | some operators => do
      let clause ← b.conjunction (← b.operatorClauses field (.of operators) entries)
      b.call .filters "$not" [clause]
    | none => refuse .noOperators
  | _ => refuse .noOperators

/-- The clause about an element of an array. -/
def elementClause (field : Call) : Shape → Build Call
  | .document _ entries => do
    b.call .filters "$elemMatch" [field, ← b.conjunction (← b.clauses entries)]
  | _ => refuse .emptyFilter

theorem filter_document (tree : Tree) (entries : List (Tree × Shape)) :
    b.filter (.document tree entries) = b.clauses entries >>= b.conjunction := rfl

theorem clauses_cons (key : Tree) (value : Shape) (rest : List (Tree × Shape)) :
    b.clauses ((key, value) :: rest) = (do
      let first ← b.entryClauses key value
      return first ++ (← b.clauses rest)) := rfl

theorem entryClauses_eq (keyTree : Tree) (s : Shape) :
    b.entryClauses keyTree s = (do
      let key ← key keyTree
      if isLogical key then b.logicalClauses key s
      else if key = "$expr" || key = "$where" then do
        return [← b.call .filters key [← b.plain s.tree]]
      else if key = "$text" then do
        return [← b.call .filters key [← b.textSearch s]]
      else if Shape.isOperator key then refuse (.noFilter key)
      else do
        let field ← b.field keyTree
        b.fieldClauses field s) := by
  cases s with
  | document tree entries => rfl
  | array tree items =>
    cases items with
    | nil => rfl
    | cons first rest => rfl
  | scalar tree => rfl

theorem filters_cons (first : Shape) (rest : List Shape) :
    b.filters (first :: rest) = (do
      let first ← b.filter first
      return first :: (← b.filters rest)) := rfl

theorem operatorClauses_cons (field : Call) (siblings : Siblings) (keyTree : Tree) (operand : Shape)
    (rest : List (Tree × Shape)) :
    b.operatorClauses field siblings ((keyTree, operand) :: rest) = (do
      let op ← key keyTree
      if op = "$options" then
        if siblings.hasRegex then b.operatorClauses field siblings rest else refuse .loneOptions
      else do
        let first ← b.operatorClause field siblings op operand
        return first :: (← b.operatorClauses field siblings rest)) := rfl

theorem operatorClause_eq (field : Call) (siblings : Siblings) (op : String) (s : Shape) :
    b.operatorClause field siblings op s =
      if op = "$not" then b.notClause field s
      else if op = "$elemMatch" then b.elementClause field s
      else b.plainClause field siblings op s := by
  by_cases hnot : op = "$not"
  · subst hnot
    cases s <;> rfl
  by_cases helem : op = "$elemMatch"
  · subst helem
    cases s <;> rfl
  rw [if_neg hnot, if_neg helem]
  cases s <;> exact (if_neg hnot).trans (if_neg helem)

end QueryScribe.Builder
