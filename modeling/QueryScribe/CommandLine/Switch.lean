import QueryScribe.Text.Digit
import QueryScribe.Text.Quoted

/-!
# Switches and words

A command line is made of words. A word that starts with a dash holds a switch, which may be
shortened as long as it is clear which one is meant, or several switches of one letter. The value of
a switch may be part of the word.
-/

namespace QueryScribe.CommandLine

/-- The switches of the program. -/
inductive Switch
  | help | target | plain | imports | limit | verbose
deriving DecidableEq, Repr

namespace Switch

/-- All switches, in the order in which messages list them. -/
def all : List Switch := [help, target, plain, imports, limit, verbose]

/-- The ways to write a switch. -/
def spellings : Switch → List String
  | help => ["-h", "--help"]
  | target => ["-t", "--target"]
  | plain => ["--no-idiomatic"]
  | imports => ["--imports"]
  | limit => ["--max-length"]
  | verbose => ["-v", "--verbose"]

/-- A switch as messages show it. -/
def label (s : Switch) : String := "/".intercalate s.spellings

/-- Whether a switch has a value. -/
def takesValue : Switch → Bool
  | target | limit => true
  | _ => false

/-- All spellings with their switches. -/
def spelled : List (String × Switch) := all.flatMap fun s => s.spellings.map fun text => (text, s)

/-- The switch with a spelling. -/
def ofSpelling? (text : String) : Option Switch := spelled.lookup text

end Switch

/-- Why a command line is wrong. -/
inductive Misuse
  | ambiguous (word : String) (spellings : List String)
  | missingValue (s : Switch)
  | unwantedValue (s : Switch) (value : String)
  | unknownTarget (name : String) (known : List String)
  | noInteger (text : String)
  | noTarget
  | unrecognized (words : List String)
deriving DecidableEq, Repr

/-- A fault of a switch as messages show it. -/
def Switch.complaint (s : Switch) (text : String) : String := "argument " ++ s.label ++ ": " ++ text

/-- The text of a wrong command line. -/
def Misuse.message : Misuse → String
  | ambiguous word spellings =>
    "ambiguous option: " ++ word ++ " could match " ++ ", ".intercalate spellings
  | missingValue s => s.complaint "expected one argument"
  | unwantedValue s value => s.complaint ("ignored explicit argument " ++ Text.quoted value)
  | unknownTarget name known =>
    Switch.target.complaint ("invalid choice: " ++ Text.quoted name ++ " (choose from " ++
      ", ".intercalate (known.map Text.quoted) ++ ")")
  | noInteger text => Switch.limit.complaint ("invalid int value: " ++ Text.quoted text)
  | noTarget => "the following arguments are required: " ++ Switch.target.label
  | unrecognized words => "unrecognized arguments: " ++ " ".intercalate words

/-- The switches of one word. -/
structure Group where
  /-- The switches that need nothing more, with their values. -/
  taken : List (Switch × String) := []
  /-- The last switch, if its value is the next word. -/
  waiting : Option Switch := none
  /-- Letters that are no switches. -/
  extra : Option String := none
deriving DecidableEq, Repr

namespace Group

/-- A switch on its own. -/
def single (s : Switch) : Group :=
  if s.takesValue then { waiting := some s } else { taken := [(s, "")] }

/-- A switch with the value after its equals sign. -/
def assigned (s : Switch) (value : String) : Except Misuse Group :=
  if s.takesValue then .ok { taken := [(s, value)] } else .error (.unwantedValue s value)

/-- A switch of one letter and the text after it: its value, or more letters. -/
def ofPacked (s : Switch) : List Char → Except Misuse Group
  | [] => .ok (single s)
  | c :: cs =>
    if s.takesValue then .ok { taken := [(s, String.ofList (c :: cs))] }
    else if c = '-' then .error (.unwantedValue s (String.ofList (c :: cs)))
    else match Switch.ofSpelling? (String.ofList ['-', c]) with
      | none => .ok { taken := [(s, "")], extra := some (String.ofList ('-' :: c :: cs)) }
      | some next =>
        let rest := match cs with
          | '=' :: value => assigned next (String.ofList value)
          | _ => ofPacked next cs
        rest.map fun g => { g with taken := (s, "") :: g.taken }

end Group

/-- What a word is. -/
inductive Word
  /-- Text that is no switch. -/
  | value (text : String)
  /-- Two dashes: all words after them are values. -/
  | separator
  /-- Switches, or what is wrong with them. -/
  | switches (group : Except Misuse Group)
  /-- A word that looks like a switch and is none. -/
  | unknown (text : String)

namespace Word

/-- A text before its first equals sign, and what comes after it. -/
def splitAssigned : List Char → List Char × Option (List Char)
  | [] => ([], none)
  | c :: cs =>
    if c = '=' then ([], some cs)
    else
      let (before, after) := splitAssigned cs
      (c :: before, after)

/-- Whether a word is a negative number: digits, or a point with digits after it. A line break at
its end does not count. -/
def isNegative : List Char → Bool
  | '-' :: cs =>
    let cs := match cs.reverse with
      | '\n' :: rest => rest.reverse
      | _ => cs
    let fraction := cs.dropWhile Text.isDigit
    match fraction with
    | [] => !cs.isEmpty
    | '.' :: digits => !digits.isEmpty && digits.all Text.isDigit
    | _ => false
  | _ => false

/-- A word that starts with a dash and is no switch. Negative numbers and texts with a blank are
values. -/
def ofOther (text : String) : Word :=
  if isNegative text.toList || text.toList.contains ' ' then value text else unknown text

/-- A word that starts with two dashes, perhaps shortened. -/
def ofLong (text : String) : Except Misuse Word :=
  let (start, assigned) := splitAssigned text.toList
  match Switch.spelled.filter fun (spelling, _) => start.isPrefixOf spelling.toList with
  | [] => .ok (ofOther text)
  | [(_, s)] => .ok (switches (match assigned with
    | some assigned => Group.assigned s (String.ofList assigned)
    | none => .ok (.single s)))
  | several => .error (.ambiguous text (several.map (·.1)))

/-- A word that starts with one dash: a letter, perhaps with more text. -/
def ofShort (text : String) : Word :=
  match text.toList with
  | dash :: letter :: rest =>
    match Switch.ofSpelling? (String.ofList [dash, letter]) with
    | some s => switches (Group.ofPacked s rest)
    | none => ofOther text
  | _ => value text

/-- What a word is, where no separator stands before it. -/
def ofText (text : String) : Except Misuse Word :=
  match text.toList with
  | [] => .ok (value text)
  | ['-'] => .ok (value text)
  | '-' :: second :: _ =>
    let (start, assigned) := splitAssigned text.toList
    match Switch.ofSpelling? text, assigned, Switch.ofSpelling? (String.ofList start) with
    | some s, _, _ => .ok (switches (.ok (.single s)))
    | none, some assigned, some s => .ok (switches (Group.assigned s (String.ofList assigned)))
    | none, _, _ => if second = '-' then ofLong text else .ok (ofShort text)
  | _ => .ok (value text)

/-- What the words of a command line are. -/
def ofTexts : List String → Except Misuse (List Word)
  | [] => .ok []
  | text :: rest =>
    if text = "--" then .ok (separator :: rest.map value)
    else do return (← ofText text) :: (← ofTexts rest)

end Word

end QueryScribe.CommandLine
