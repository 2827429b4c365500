import QueryScribe.Grammar.Definition

/-!
# Corners

The corners of a category are the categories that can start where it is expected, itself included.
They are given along the lines of the grammar: a test leads down a ladder of operators to an atom,
and a statement to the forms it can have. The terminals with which a category can start are those
that begin productions of its corners.
-/

namespace QueryScribe

/-- The rules from a choice of operands down to an atom. Each starts with the next one. -/
def Rule.ladder : List Rule :=
  [.orTest, .andTest, .notTest, .comparison, .expr, .xorExpr, .andExpr, .shiftExpr, .arithExpr,
   .term, .factor, .power, .atomExpr, .atom]

namespace Category

/-- The corners of a rule of the ladder. -/
def ladderFrom (r : Rule) : List Category :=
  (Rule.ladder.dropWhile (· ≠ r)).map rule ++ [run .strings]

/-- The corners of a test. -/
def testCorners : List Category :=
  [rule .test, rule .inlineIf, rule .lambdaDef] ++ ladderFrom .orTest

/-- The corners of a simple statement. -/
def simpleCorners : List Category :=
  [.simpleStmt, .smallStmt, .exprStmt, .testListStar, .starExpr, .delStmt, .passStmt, .flowStmt,
   .breakStmt, .continueStmt, .returnStmt, .raiseStmt, .importStmt, .globalStmt, .nonlocalStmt,
   .assertStmt].map rule ++ testCorners

/-- The corners of a compound statement. -/
def compoundCorners : List Category :=
  [.compoundStmt, .ifStmt, .whileStmt, .forStmt, .tryStmt, .withStmt, .funcDef, .classDef,
   .decorated, .decorator, .asyncStmt].map rule ++ [run .decorators]

/-- The corners of a statement. -/
def stmtCorners : List Category := rule .stmt :: simpleCorners ++ compoundCorners

/-- The corners of a rule. -/
def ruleCorners : Rule → List Category
  | .fileInput => rule .fileInput :: run .lines :: stmtCorners
  | .stmt => stmtCorners
  | .simpleStmt => simpleCorners
  | .smallStmt => simpleCorners.filter (· ≠ rule .simpleStmt)
  | .exprStmt => [.exprStmt, .testListStar, .starExpr].map rule ++ testCorners
  | .testListStar => [.testListStar, .starExpr].map rule ++ testCorners
  | .assignStmt => [rule .assignStmt, run .equalTestLists]
  | .flowStmt => [.flowStmt, .breakStmt, .continueStmt, .returnStmt, .raiseStmt].map rule
  | .compoundStmt => compoundCorners
  | .decorated => [rule .decorated, rule .decorator, run .decorators]
  | .suite => rule .suite :: simpleCorners
  | .test => testCorners
  | .inlineIf => rule .inlineIf :: ladderFrom .orTest
  | .testListComp => [.testListComp, .starExpr].map rule ++ testCorners
  | .dictOrSet => [.dictOrSet, .keyValue].map rule ++ testCorners
  | .subscriptList => [.subscriptList, .subscript].map rule ++ testCorners
  | .argList => [.argList, .argument].map rule ++ testCorners
  | .exprList => [.exprList, .starExpr].map rule ++ ladderFrom .expr
  | .compIter => [.compIter, .compFor, .compIf].map rule
  | .withItem => rule .withItem :: testCorners
  | .keyValue => rule .keyValue :: testCorners
  | .subscript => rule .subscript :: testCorners
  | .testList => rule .testList :: testCorners
  | .argument => rule .argument :: testCorners
  | r => if Rule.ladder.contains r then ladderFrom r else [rule r]

/-- The categories that can start where a category is expected. -/
def corners : Category → List Category
  | source => source :: ruleCorners .fileInput
  | rule r => ruleCorners r
  | run .lines => run .lines :: stmtCorners
  | run .stmts => run .stmts :: stmtCorners
  | run .excepts => [run .excepts, rule .exceptClause]
  | run .decorators => [run .decorators, rule .decorator]
  | run .comparisons => [run .comparisons, rule .compOp]
  | run r => [run r]

/-- The terminals with which a category can start. -/
def starters (c : Category) : List Terminal :=
  c.corners.flatMap fun d => d.productions.filterMap fun p =>
    match p.rhs with
    | .terminal t :: _ => some t
    | _ => none

end Category

end QueryScribe
