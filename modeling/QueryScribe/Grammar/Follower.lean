import QueryScribe.Grammar.Corner

/-!
# Followers

The terminals that can stand right after a category. After an operand they are what can end the
expression and the operators that take the operand or something built on it, so that each step down
the ladder adds the operators of that step.
-/

namespace QueryScribe.Category

open Terminal

/-- What ends a small statement. -/
def afterSmall : List Terminal := [newline, semicolon]

/-- What can follow a test. -/
def afterTest : List Terminal :=
  afterSmall ++ [rightParen, rightBracket, rightBrace, colon, comma, equal, augAssign, asWord,
    forWord, fromWord]

/-- What can follow a choice of operands. -/
def afterOrTest : List Terminal := afterTest ++ [ifWord, elseWord]

/-- What can follow an operand of `or`. -/
def afterAndTest : List Terminal := orWord :: afterOrTest

/-- What can follow an operand of `and`. -/
def afterNotTest : List Terminal := andWord :: afterAndTest

/-- What can follow an operand of a comparison. -/
def afterExpr : List Terminal :=
  [less, greater, equalEqual, greaterEqual, lessEqual, notEqual, inWord, isWord, notWord] ++
    afterNotTest

/-- What can follow an operand of `|`. -/
def afterXorExpr : List Terminal := bar :: afterExpr

/-- What can follow an operand of `^`. -/
def afterAndExpr : List Terminal := caret :: afterXorExpr

/-- What can follow an operand of `&`. -/
def afterShiftExpr : List Terminal := ampersand :: afterAndExpr

/-- What can follow an operand of a shift. -/
def afterArithExpr : List Terminal := [leftShift, rightShift] ++ afterShiftExpr

/-- What can follow an operand of a sum. -/
def afterTerm : List Terminal := [plus, minus] ++ afterArithExpr

/-- What can follow an operand of a product. -/
def afterFactor : List Terminal := [star, slash, doubleSlash, percent, .at] ++ afterTerm

/-- What can follow an atom. -/
def afterAtom : List Terminal := [doubleStar, leftParen, leftBracket, dot] ++ afterFactor

/-- What can follow a line. -/
def afterLine : List Terminal := [newline, endOfInput] ++ (rule .stmt).starters

/-- What can follow a statement. -/
def afterStmt : List Terminal := dedent :: afterLine

/-- What can follow the body of a compound statement. -/
def afterSuite : List Terminal := [elifWord, elseWord, exceptWord, finallyWord] ++ afterStmt

/-- What can follow a rule. -/
def ruleFollowers : Rule → List Terminal
  | .fileInput => [endOfInput]
  | .stmt | .compoundStmt | .ifStmt | .whileStmt | .forStmt | .tryStmt | .withStmt | .funcDef
  | .classDef | .decorated | .asyncStmt => afterStmt
  | .simpleStmt | .suite => afterSuite
  | .smallStmt | .exprStmt | .annAssign | .augAssign | .assignStmt | .delStmt | .passStmt
  | .flowStmt | .breakStmt | .continueStmt | .returnStmt | .raiseStmt | .importStmt | .globalStmt
  | .nonlocalStmt | .assertStmt => afterSmall
  | .testListStar => afterSmall ++ [colon, equal, augAssign]
  | .dottedName => afterSmall ++ [comma, leftParen, importWord]
  | .exceptClause => [colon]
  | .withItem => [colon, comma]
  | .parameters => [rightParen, colon]
  | .decorator => [.at, classWord, defWord]
  | .test | .inlineIf | .lambdaDef => afterTest
  | .orTest => afterOrTest
  | .andTest => afterAndTest
  | .notTest | .comparison => afterNotTest
  | .compOp => (rule .expr).starters
  | .starExpr =>
    afterSmall ++ [rightParen, rightBracket, colon, comma, equal, augAssign, forWord, inWord]
  | .expr => afterExpr
  | .xorExpr => afterXorExpr
  | .andExpr => afterAndExpr
  | .shiftExpr => afterShiftExpr
  | .arithExpr => afterArithExpr
  | .term => afterTerm
  | .factor | .power => afterFactor
  | .atomExpr | .atom => afterAtom
  | .testListComp => [rightParen, rightBracket]
  | .dictOrSet => [rightBrace]
  | .keyValue => [rightBrace, comma, forWord]
  | .subscriptList => [rightBracket]
  | .subscript => [rightBracket, comma]
  | .exprList => afterSmall ++ [inWord]
  | .testList => afterSmall ++ [colon]
  | .argList => [rightParen]
  | .argument => [rightParen, comma]
  | .compIter | .compFor | .compIf => [rightParen, rightBracket, rightBrace, comma]
  | _ => []

/-- What can follow a run. -/
def runFollowers : Run → List Terminal
  | .lines => afterLine
  | .semicolonSmalls => afterSmall
  | .equalTestLists => equal :: afterSmall
  | .commaTestsOrStars =>
    afterSmall ++ [rightParen, rightBracket, colon, comma, equal, augAssign]
  | .commaDottedNames => comma :: afterSmall
  | .commaNames => afterSmall ++ [rightParen, colon, comma]
  | .dotNames => afterSmall ++ [dot, comma, leftParen, importWord]
  | .elifs => [elifWord, elseWord] ++ afterStmt
  | .excepts => [elseWord, exceptWord, finallyWord] ++ afterStmt
  | .commaWithItems => [colon, comma]
  | .decorators => [.at, classWord, defWord]
  | .stmts => dedent :: (rule .stmt).starters
  | .orTests => afterAndTest
  | .andTests => afterNotTest
  | .comparisons => afterExpr
  | .barExprs => afterXorExpr
  | .caretExprs => afterAndExpr
  | .ampersandExprs => afterShiftExpr
  | .shifts => afterArithExpr
  | .sums => afterTerm
  | .products => afterFactor
  | .strings => [string, longString] ++ afterAtom
  | .commaKeyValues => [rightBrace, comma]
  | .commaTests => afterSmall ++ [colon, rightBrace, comma]
  | .commaSubscripts => [rightBracket, comma]
  | .commaExprsOrStars => afterSmall ++ [inWord, comma]
  | .commaArguments => [rightParen, comma]

/-- The terminals that can follow a category. -/
def followers : Category → List Terminal
  | source => [endOfInput]
  | rule r => ruleFollowers r
  | run r => runFollowers r

end QueryScribe.Category
