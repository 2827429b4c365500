/-!
# Rules

The names that inner nodes of a parse tree carry: the rules of the grammar, and the names that
single alternatives of `atom`, `atom_expr` and `argument` have of their own.
-/

namespace QueryScribe

/-- The name of an inner node. -/
inductive Rule
  | fileInput | stmt | simpleStmt | smallStmt | exprStmt | annAssign | augAssign | assignStmt
  | testListStar | delStmt | passStmt | flowStmt | breakStmt | continueStmt | returnStmt
  | raiseStmt | importStmt | dottedName | globalStmt | nonlocalStmt | assertStmt | compoundStmt
  | ifStmt | whileStmt | forStmt | tryStmt | exceptClause | withStmt | withItem | funcDef
  | parameters | classDef | decorated | decorator | asyncStmt | suite | test | inlineIf
  | lambdaDef | orTest | andTest | notTest | comparison | compOp | starExpr | expr | xorExpr
  | andExpr | shiftExpr | arithExpr | term | factor | power | atomExpr | atom | testListComp
  | dictOrSet | keyValue | subscriptList | subscript | exprList | testList | argList | argument
  | compIter | compFor | compIf
  | functionCall | attributeAccess | indexAccess | setLiteral | arrayLiteral | objectLiteral
  | identifier | stringLiteral | integerLiteral | hexLiteral | octLiteral | binLiteral
  | floatLiteral | imagLiteral | booleanLiteral | noneLiteral | ellipsisAtom | keywordArgument
  | starArgument
deriving DecidableEq, Repr

namespace Rule

/-- A rule as messages and answers spell it. -/
def label : Rule → String
  | .fileInput => "file_input"
  | .stmt => "stmt"
  | .simpleStmt => "simple_stmt"
  | .smallStmt => "small_stmt"
  | .exprStmt => "expr_stmt"
  | .annAssign => "annassign"
  | .augAssign => "augassign"
  | .assignStmt => "assign_stmt"
  | .testListStar => "testlist_star_expr"
  | .delStmt => "del_stmt"
  | .passStmt => "pass_stmt"
  | .flowStmt => "flow_stmt"
  | .breakStmt => "break_stmt"
  | .continueStmt => "continue_stmt"
  | .returnStmt => "return_stmt"
  | .raiseStmt => "raise_stmt"
  | .importStmt => "import_stmt"
  | .dottedName => "dotted_name"
  | .globalStmt => "global_stmt"
  | .nonlocalStmt => "nonlocal_stmt"
  | .assertStmt => "assert_stmt"
  | .compoundStmt => "compound_stmt"
  | .ifStmt => "if_stmt"
  | .whileStmt => "while_stmt"
  | .forStmt => "for_stmt"
  | .tryStmt => "try_stmt"
  | .exceptClause => "except_clause"
  | .withStmt => "with_stmt"
  | .withItem => "with_item"
  | .funcDef => "funcdef"
  | .parameters => "parameters"
  | .classDef => "classdef"
  | .decorated => "decorated"
  | .decorator => "decorator"
  | .asyncStmt => "async_stmt"
  | .suite => "suite"
  | .test => "test"
  | .inlineIf => "inline_if"
  | .lambdaDef => "lambdef"
  | .orTest => "or_test"
  | .andTest => "and_test"
  | .notTest => "not_test"
  | .comparison => "comparison"
  | .compOp => "comp_op"
  | .starExpr => "star_expr"
  | .expr => "expr"
  | .xorExpr => "xor_expr"
  | .andExpr => "and_expr"
  | .shiftExpr => "shift_expr"
  | .arithExpr => "arith_expr"
  | .term => "term"
  | .factor => "factor"
  | .power => "power"
  | .atomExpr => "atom_expr"
  | .atom => "atom"
  | .testListComp => "testlist_comp"
  | .dictOrSet => "dictorsetmaker"
  | .keyValue => "key_value"
  | .subscriptList => "subscriptlist"
  | .subscript => "subscript"
  | .exprList => "exprlist"
  | .testList => "testlist"
  | .argList => "arglist"
  | .argument => "argument"
  | .compIter => "comp_iter"
  | .compFor => "comp_for"
  | .compIf => "comp_if"
  | .functionCall => "function_call"
  | .attributeAccess => "attribute_access"
  | .indexAccess => "index_access"
  | .setLiteral => "set_literal"
  | .arrayLiteral => "array_literal"
  | .objectLiteral => "object_literal"
  | .identifier => "identifier"
  | .stringLiteral => "string_literal"
  | .integerLiteral => "integer_literal"
  | .hexLiteral => "hex_literal"
  | .octLiteral => "oct_literal"
  | .binLiteral => "bin_literal"
  | .floatLiteral => "float_literal"
  | .imagLiteral => "imag_literal"
  | .booleanLiteral => "boolean_literal"
  | .noneLiteral => "none_literal"
  | .ellipsisAtom => "ellipsis_atom"
  | .keywordArgument => "keyword_argument"
  | .starArgument => "star_argument"

/-- The number of rules. -/
def count : Nat := 86

/-- Rules that mean something of their own even where they hold a single subtree, such as a call
without arguments. -/
def isCategory : Rule → Bool
  | .functionCall | .attributeAccess | .indexAccess | .setLiteral | .arrayLiteral
  | .objectLiteral => true
  | _ => false

/-- Literals that stand for a number. -/
def isNumber : Rule → Bool
  | .integerLiteral | .floatLiteral | .hexLiteral | .octLiteral | .binLiteral | .imagLiteral => true
  | _ => false

end Rule

end QueryScribe
