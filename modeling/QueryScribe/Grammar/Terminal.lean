/-!
# Terminals

The kinds of token that the grammar knows. A terminal either has one spelling, or stands for a class
of lexemes (names, numbers, strings), or is made by the layout of the lines and spells nothing.
-/

namespace QueryScribe

/-- A kind of token. -/
inductive Terminal
  | name | decNumber | hexNumber | octNumber | binNumber | floatNumber | imagNumber | string
  | longString | augAssign | newline | indent | dedent | endOfInput
  | leftParen | rightParen | leftBracket | rightBracket | leftBrace | rightBrace | colon | comma
  | dot | equal | semicolon | arrow | ellipsis | less | greater | equalEqual | greaterEqual
  | lessEqual | notEqual | bar | caret | ampersand | leftShift | rightShift | plus | minus
  | tilde | star | doubleStar | slash | doubleSlash | percent | at
  | andWord | asWord | assertWord | asyncWord | breakWord | classWord | continueWord | defWord
  | delWord | elifWord | elseWord | exceptWord | finallyWord | forWord | fromWord | globalWord
  | ifWord | importWord | inWord | isWord | lambdaWord | nonlocalWord | notWord | orWord
  | passWord | raiseWord | returnWord | tryWord | whileWord | withWord | trueWord | falseWord
  | noneWord
deriving DecidableEq, Repr

namespace Terminal

/-- The name of a terminal in messages and trees. -/
def label : Terminal → String
  | .name => "NAME"
  | .decNumber => "DEC_NUMBER"
  | .hexNumber => "HEX_NUMBER"
  | .octNumber => "OCT_NUMBER"
  | .binNumber => "BIN_NUMBER"
  | .floatNumber => "FLOAT_NUMBER"
  | .imagNumber => "IMAG_NUMBER"
  | .string => "STRING"
  | .longString => "LONG_STRING"
  | .augAssign => "AUGASSIGN"
  | .newline => "_NEWLINE"
  | .indent => "_INDENT"
  | .dedent => "_DEDENT"
  | .endOfInput => "$END"
  | .leftParen => "LPAR"
  | .rightParen => "RPAR"
  | .leftBracket => "LSQB"
  | .rightBracket => "RSQB"
  | .leftBrace => "LBRACE"
  | .rightBrace => "RBRACE"
  | .colon => "COLON"
  | .comma => "COMMA"
  | .dot => "DOT"
  | .equal => "EQUAL"
  | .semicolon => "SEMICOLON"
  | .arrow => "__ANON_0"
  | .ellipsis => "ELLIPSIS"
  | .less => "LT"
  | .greater => "GT"
  | .equalEqual => "EQEQ"
  | .greaterEqual => "GTE"
  | .lessEqual => "LTE"
  | .notEqual => "NOTEQ"
  | .bar => "VBAR"
  | .caret => "CIRCUMFLEX"
  | .ampersand => "AMPERSAND"
  | .leftShift => "LSHIFT"
  | .rightShift => "RSHIFT"
  | .plus => "PLUS"
  | .minus => "MINUS"
  | .tilde => "TILDE"
  | .star => "STAR"
  | .doubleStar => "DSTAR"
  | .slash => "SLASH"
  | .doubleSlash => "DSLASH"
  | .percent => "PERCENT"
  | .at => "AT"
  | .andWord => "AND"
  | .asWord => "AS"
  | .assertWord => "ASSERT"
  | .asyncWord => "ASYNC"
  | .breakWord => "BREAK"
  | .classWord => "CLASS"
  | .continueWord => "CONTINUE"
  | .defWord => "DEF"
  | .delWord => "DEL"
  | .elifWord => "ELIF"
  | .elseWord => "ELSE"
  | .exceptWord => "EXCEPT"
  | .finallyWord => "FINALLY"
  | .forWord => "FOR"
  | .fromWord => "FROM"
  | .globalWord => "GLOBAL"
  | .ifWord => "IF"
  | .importWord => "IMPORT"
  | .inWord => "IN"
  | .isWord => "IS"
  | .lambdaWord => "LAMBDA"
  | .nonlocalWord => "NONLOCAL"
  | .notWord => "NOT"
  | .orWord => "OR"
  | .passWord => "PASS"
  | .raiseWord => "RAISE"
  | .returnWord => "RETURN"
  | .tryWord => "TRY"
  | .whileWord => "WHILE"
  | .withWord => "WITH"
  | .trueWord => "TRUE"
  | .falseWord => "FALSE"
  | .noneWord => "NONE"

/-- The terminals with one spelling, longer spellings first: of two that match at one place the
longer is meant. -/
def spelled : List (Terminal × String) :=
  [(.continueWord, "continue"), (.nonlocalWord, "nonlocal"), (.finallyWord, "finally"),
   (.assertWord, "assert"), (.exceptWord, "except"), (.globalWord, "global"),
   (.importWord, "import"), (.lambdaWord, "lambda"), (.returnWord, "return"),
   (.asyncWord, "async"), (.breakWord, "break"), (.classWord, "class"), (.raiseWord, "raise"),
   (.whileWord, "while"), (.falseWord, "False"), (.elifWord, "elif"), (.elseWord, "else"),
   (.fromWord, "from"), (.passWord, "pass"), (.withWord, "with"), (.trueWord, "True"),
   (.noneWord, "None"), (.ellipsis, "..."), (.andWord, "and"), (.defWord, "def"),
   (.delWord, "del"), (.forWord, "for"), (.notWord, "not"), (.tryWord, "try"), (.arrow, "->"),
   (.equalEqual, "=="), (.greaterEqual, ">="), (.lessEqual, "<="), (.notEqual, "!="),
   (.leftShift, "<<"), (.rightShift, ">>"), (.doubleStar, "**"), (.doubleSlash, "//"),
   (.asWord, "as"), (.ifWord, "if"), (.inWord, "in"), (.isWord, "is"), (.orWord, "or"),
   (.leftParen, "("), (.rightParen, ")"), (.leftBracket, "["), (.rightBracket, "]"),
   (.leftBrace, "\x7b"), (.rightBrace, "\x7d"), (.colon, ":"), (.comma, ","), (.dot, "."),
   (.equal, "="), (.semicolon, ";"), (.less, "<"), (.greater, ">"), (.bar, "|"), (.caret, "^"),
   (.ampersand, "&"), (.plus, "+"), (.minus, "-"), (.tilde, "~"), (.star, "*"), (.slash, "/"),
   (.percent, "%"), (.at, "@")]

/-- The terminals that only separate or enclose: they count for the extent of a node but are not
among its children. -/
def isDelimiter : Terminal → Bool
  | .leftParen | .rightParen | .leftBracket | .rightBracket | .leftBrace | .rightBrace | .colon |
  .comma | .dot | .equal | .semicolon | .arrow | .newline | .indent | .dedent | .endOfInput |
  .andWord | .asWord | .assertWord | .asyncWord | .breakWord | .classWord | .continueWord |
  .defWord | .delWord | .elifWord | .elseWord | .exceptWord | .finallyWord | .forWord |
  .fromWord | .globalWord | .ifWord | .importWord | .lambdaWord | .nonlocalWord | .orWord |
  .passWord | .raiseWord | .returnWord | .tryWord | .whileWord | .withWord => true
  | _ => false

/-- The words that are not names where they are expected. -/
def ofWord? (accepts : Terminal → Bool) (word : String) : Option Terminal :=
  (spelled.find? fun (t, text) => text == word && accepts t).map (·.1)

/-- The terminals that a text can hold. -/
def isWritten : Terminal → Bool
  | .indent | .dedent | .endOfInput => false
  | _ => true

/-- The number of terminals. -/
def count : Nat := 80

end Terminal

end QueryScribe
