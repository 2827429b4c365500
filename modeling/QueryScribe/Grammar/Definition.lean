import QueryScribe.Grammar.Production

/-!
# The grammar of the source language

Expressions of Python 3 with its statement forms around them. Statements are read only so that they
can be refused by name. Rules that hold a single rule are kept as nodes.
-/

namespace QueryScribe

open Phrase

/-- The group that a run repeats. -/
def Run.body : Run → Phrase
  | .lines => any [word .newline, one .stmt]
  | .semicolonSmalls => seq [word .semicolon, one .smallStmt]
  | .equalTestLists => seq [word .equal, one .testListStar]
  | .commaTestsOrStars => seq [word .comma, any [one .test, one .starExpr]]
  | .commaDottedNames => seq [word .comma, one .dottedName]
  | .commaNames => seq [word .comma, word .name]
  | .dotNames => seq [word .dot, word .name]
  | .elifs => seq [word .elifWord, one .test, word .colon, one .suite]
  | .excepts => seq [one .exceptClause, word .colon, one .suite]
  | .commaWithItems => seq [word .comma, one .withItem]
  | .decorators => one .decorator
  | .stmts => one .stmt
  | .orTests => seq [word .orWord, one .andTest]
  | .andTests => seq [word .andWord, one .notTest]
  | .comparisons => seq [one .compOp, one .expr]
  | .barExprs => seq [word .bar, one .xorExpr]
  | .caretExprs => seq [word .caret, one .andExpr]
  | .ampersandExprs => seq [word .ampersand, one .shiftExpr]
  | .shifts => seq [any [word .leftShift, word .rightShift], one .arithExpr]
  | .sums => seq [any [word .plus, word .minus], one .term]
  | .products =>
    seq [any [word .star, word .slash, word .doubleSlash, word .percent, word .at], one .factor]
  | .strings => any [word .string, word .longString]
  | .commaKeyValues => seq [word .comma, one .keyValue]
  | .commaTests => seq [word .comma, one .test]
  | .commaSubscripts => seq [word .comma, one .subscript]
  | .commaExprsOrStars => seq [word .comma, any [one .expr, one .starExpr]]
  | .commaArguments => seq [word .comma, one .argument]

/-- What a rule consists of. Names that are alternatives of other rules have nothing of their
own. -/
def Rule.body : Rule → Phrase
  | .fileInput => many .lines
  | .stmt => any [one .simpleStmt, one .compoundStmt]
  | .simpleStmt =>
    seq [one .smallStmt, many .semicolonSmalls, opt (word .semicolon), word .newline]
  | .smallStmt =>
    any [one .exprStmt, one .delStmt, one .passStmt, one .flowStmt, one .importStmt,
      one .globalStmt, one .nonlocalStmt, one .assertStmt]
  | .exprStmt =>
    seq [one .testListStar, opt (any [one .annAssign, one .augAssign, one .assignStmt])]
  | .annAssign => seq [word .colon, one .test, opt (seq [word .equal, one .test])]
  | .augAssign => seq [word .augAssign, one .testList]
  | .assignStmt => some .equalTestLists
  | .testListStar =>
    seq [any [one .test, one .starExpr], many .commaTestsOrStars, opt (word .comma)]
  | .delStmt => seq [word .delWord, one .exprList]
  | .passStmt => word .passWord
  | .flowStmt => any [one .breakStmt, one .continueStmt, one .returnStmt, one .raiseStmt]
  | .breakStmt => word .breakWord
  | .continueStmt => word .continueWord
  | .returnStmt => seq [word .returnWord, opt (one .testList)]
  | .raiseStmt =>
    seq [word .raiseWord, opt (seq [one .test, opt (seq [word .fromWord, one .test])])]
  | .importStmt =>
    any [seq [word .importWord, one .dottedName, many .commaDottedNames],
      seq [word .fromWord, one .dottedName, word .importWord,
        any [word .star, seq [word .name, many .commaNames]]]]
  | .dottedName => seq [word .name, many .dotNames]
  | .globalStmt => seq [word .globalWord, word .name, many .commaNames]
  | .nonlocalStmt => seq [word .nonlocalWord, word .name, many .commaNames]
  | .assertStmt => seq [word .assertWord, one .test, opt (seq [word .comma, one .test])]
  | .compoundStmt =>
    any [one .ifStmt, one .whileStmt, one .forStmt, one .tryStmt, one .withStmt, one .funcDef,
      one .classDef, one .decorated, one .asyncStmt]
  | .ifStmt =>
    seq [word .ifWord, one .test, word .colon, one .suite, many .elifs,
      opt (seq [word .elseWord, word .colon, one .suite])]
  | .whileStmt =>
    seq [word .whileWord, one .test, word .colon, one .suite,
      opt (seq [word .elseWord, word .colon, one .suite])]
  | .forStmt =>
    seq [word .forWord, one .exprList, word .inWord, one .testList, word .colon, one .suite,
      opt (seq [word .elseWord, word .colon, one .suite])]
  | .tryStmt =>
    any [seq [word .tryWord, word .colon, one .suite, some .excepts,
        opt (seq [word .elseWord, word .colon, one .suite]),
        opt (seq [word .finallyWord, word .colon, one .suite])],
      seq [word .tryWord, word .colon, one .suite, word .finallyWord, word .colon, one .suite]]
  | .exceptClause =>
    seq [word .exceptWord, opt (seq [one .test, opt (seq [word .asWord, word .name])])]
  | .withStmt => seq [word .withWord, one .withItem, many .commaWithItems, word .colon, one .suite]
  | .withItem => seq [one .test, opt (seq [word .asWord, one .expr])]
  | .funcDef =>
    seq [word .defWord, word .name, word .leftParen, opt (one .parameters), word .rightParen,
      opt (seq [word .arrow, one .test]), word .colon, one .suite]
  | .parameters => seq [word .name, many .commaNames, opt (word .comma)]
  | .classDef =>
    seq [word .classWord, word .name,
      opt (seq [word .leftParen, opt (one .argList), word .rightParen]), word .colon, one .suite]
  | .decorated => seq [some .decorators, any [one .classDef, one .funcDef]]
  | .decorator =>
    seq [word .at, one .dottedName,
      opt (seq [word .leftParen, opt (one .argList), word .rightParen]), word .newline]
  | .asyncStmt => seq [word .asyncWord, any [one .funcDef, one .withStmt, one .forStmt]]
  | .suite =>
    any [one .simpleStmt, seq [word .newline, word .indent, some .stmts, word .dedent]]
  | .test => any [one .orTest, one .inlineIf, one .lambdaDef]
  | .inlineIf => seq [one .orTest, word .ifWord, one .orTest, word .elseWord, one .test]
  | .lambdaDef => seq [word .lambdaWord, opt (one .parameters), word .colon, one .test]
  | .orTest => seq [one .andTest, many .orTests]
  | .andTest => seq [one .notTest, many .andTests]
  | .notTest => any [seq [word .notWord, one .notTest], one .comparison]
  | .comparison => seq [one .expr, many .comparisons]
  | .compOp =>
    any [word .less, word .greater, word .equalEqual, word .greaterEqual, word .lessEqual,
      word .notEqual, word .inWord, seq [word .notWord, word .inWord], word .isWord,
      seq [word .isWord, word .notWord]]
  | .starExpr => seq [word .star, one .expr]
  | .expr => seq [one .xorExpr, many .barExprs]
  | .xorExpr => seq [one .andExpr, many .caretExprs]
  | .andExpr => seq [one .shiftExpr, many .ampersandExprs]
  | .shiftExpr => seq [one .arithExpr, many .shifts]
  | .arithExpr => seq [one .term, many .sums]
  | .term => seq [one .factor, many .products]
  | .factor => any [seq [any [word .plus, word .minus, word .tilde], one .factor], one .power]
  | .power => seq [one .atomExpr, opt (seq [word .doubleStar, one .factor])]
  | .atomExpr => one .atom
  | .testListComp =>
    seq [any [one .test, one .starExpr],
      any [one .compFor, seq [many .commaTestsOrStars, opt (word .comma)]]]
  | .dictOrSet =>
    any [seq [one .keyValue, many .commaKeyValues, opt (word .comma)],
      seq [one .keyValue, one .compFor],
      seq [one .test, many .commaTests, opt (word .comma)],
      seq [one .test, one .compFor]]
  | .keyValue => seq [one .test, word .colon, one .test]
  | .subscriptList => seq [one .subscript, many .commaSubscripts, opt (word .comma)]
  | .subscript => any [one .test, seq [opt (one .test), word .colon, opt (one .test)]]
  | .exprList => seq [any [one .expr, one .starExpr], many .commaExprsOrStars, opt (word .comma)]
  | .testList => seq [one .test, many .commaTests, opt (word .comma)]
  | .argList => seq [one .argument, many .commaArguments, opt (word .comma)]
  | .argument => seq [one .test, opt (one .compFor)]
  | .compIter => any [one .compFor, one .compIf]
  | .compFor =>
    seq [word .forWord, one .exprList, word .inWord, one .orTest, opt (one .compIter)]
  | .compIf => seq [word .ifWord, one .orTest, opt (one .compIter)]
  | _ => []

/-- The alternatives of a rule that make a node with a name of its own. -/
def Rule.named : Rule → List (Phrase × Rule)
  | .atomExpr =>
    [(seq [one .atomExpr, word .leftParen, opt (one .argList), word .rightParen], .functionCall),
     (seq [one .atomExpr, word .dot, word .name], .attributeAccess),
     (seq [one .atomExpr, word .leftBracket, one .subscriptList, word .rightBracket],
      .indexAccess)]
  | .atom =>
    [(seq [word .leftParen, opt (one .testListComp), word .rightParen], .setLiteral),
     (seq [word .leftBracket, opt (one .testListComp), word .rightBracket], .arrayLiteral),
     (seq [word .leftBrace, opt (one .dictOrSet), word .rightBrace], .objectLiteral),
     (word .name, .identifier),
     (some .strings, .stringLiteral),
     (word .decNumber, .integerLiteral),
     (word .hexNumber, .hexLiteral),
     (word .octNumber, .octLiteral),
     (word .binNumber, .binLiteral),
     (word .floatNumber, .floatLiteral),
     (word .imagNumber, .imagLiteral),
     (any [word .trueWord, word .falseWord], .booleanLiteral),
     (word .noneWord, .noneLiteral),
     (word .ellipsis, .ellipsisAtom)]
  | .argument =>
    [(seq [one .test, word .equal, one .test], .keywordArgument),
     (seq [word .star, one .test], .starArgument),
     (seq [word .doubleStar, one .test], .starArgument)]
  | _ => []

/-- All rules. -/
def Rule.all : List Rule :=
  [.fileInput, .stmt, .simpleStmt, .smallStmt, .exprStmt, .annAssign, .augAssign, .assignStmt,
   .testListStar, .delStmt, .passStmt, .flowStmt, .breakStmt, .continueStmt, .returnStmt,
   .raiseStmt, .importStmt, .dottedName, .globalStmt, .nonlocalStmt, .assertStmt, .compoundStmt,
   .ifStmt, .whileStmt, .forStmt, .tryStmt, .exceptClause, .withStmt, .withItem, .funcDef,
   .parameters, .classDef, .decorated, .decorator, .asyncStmt, .suite, .test, .inlineIf,
   .lambdaDef, .orTest, .andTest, .notTest, .comparison, .compOp, .starExpr, .expr, .xorExpr,
   .andExpr, .shiftExpr, .arithExpr, .term, .factor, .power, .atomExpr, .atom, .testListComp,
   .dictOrSet, .keyValue, .subscriptList, .subscript, .exprList, .testList, .argList, .argument,
   .compIter, .compFor, .compIf, .functionCall, .attributeAccess, .indexAccess, .setLiteral,
   .arrayLiteral, .objectLiteral, .identifier, .stringLiteral, .integerLiteral, .hexLiteral,
   .octLiteral, .binLiteral, .floatLiteral, .imagLiteral, .booleanLiteral, .noneLiteral,
   .ellipsisAtom, .keywordArgument, .starArgument]

/-- All runs. -/
def Run.all : List Run :=
  [.lines, .semicolonSmalls, .equalTestLists, .commaTestsOrStars, .commaDottedNames, .commaNames,
   .dotNames, .elifs, .excepts, .commaWithItems, .decorators, .stmts, .orTests, .andTests,
   .comparisons, .barExprs, .caretExprs, .ampersandExprs, .shifts, .sums, .products, .strings,
   .commaKeyValues, .commaTests, .commaSubscripts, .commaExprsOrStars, .commaArguments]

/-- The productions of a rule. -/
def Rule.productions (r : Rule) : List Production :=
  r.body.map (fun rhs => ⟨.rule r, rhs, Option.some r⟩) ++
    r.named.flatMap fun (p, node) => p.map fun rhs => ⟨.rule r, rhs, Option.some node⟩

/-- The productions of a run: its group, alone or after a run. -/
def Run.productions (r : Run) : List Production :=
  r.body.map (fun rhs => ⟨.run r, rhs, none⟩) ++
    r.body.map fun rhs => ⟨.run r, .category (.run r) :: rhs, none⟩

/-- The production that a whole source completes. -/
def Production.start : Production := ⟨.source, [.category (.rule .fileInput)], none⟩

namespace Category

/-- All categories, in the order of their codes. -/
def all : List Category := source :: Rule.all.map rule ++ Run.all.map run

/-- The productions of a category. -/
def productions : Category → List Production
  | source => [.start]
  | rule r => r.productions
  | run r => r.productions

end Category

/-- All productions of the grammar. -/
def productions : List Production := Category.all.flatMap Category.productions

end QueryScribe
