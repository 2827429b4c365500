import QueryScribe.CommandLine.Switch
import QueryScribe.Compile
import QueryScribe.Target

/-!
# Settings

The settings of a run, read from the words of a command line. Words that are left over are reported
only if nothing else is wrong.
-/

namespace QueryScribe.CommandLine

/-- Why a command line gives no settings. -/
inductive Halt
  | help
  | misuse (m : Misuse)
deriving DecidableEq, Repr

/-- What is known of a run so far. -/
structure Draft where
  target : Option Target := none
  options : Options := {}
  imports : Bool := false
  verbose : Bool := false
  /-- The path of the source; `none` inside stands for no path. -/
  path : Option (Option String) := none
  /-- Words that have no meaning. -/
  extra : List String := []

namespace Draft

/-- Takes a switch with its value. -/
def take (d : Draft) (s : Switch) (value : String) : Except Halt Draft :=
  match s with
  | .help => .error .help
  | .target =>
    match Target.ofName? value with
    | some target => .ok { d with target := some target }
    | none => .error (.misuse (.unknownTarget value (Target.all.map (·.name))))
  | .plain => .ok { d with options := { d.options with idiomatic := false } }
  | .imports => .ok { d with imports := true }
  | .limit =>
    match Numeral.readDecimal? value.toList with
    | some n => .ok { d with options := { d.options with limit := some n } }
    | none => .error (.misuse (.noInteger value))
  | .verbose => .ok { d with verbose := true }

/-- Takes switches with their values, one after the other. -/
def takeAll (d : Draft) (taken : List (Switch × String)) : Except Halt Draft :=
  taken.foldlM (fun d (s, value) => d.take s value) d

/-- Leaves a word over. -/
def leave (d : Draft) (text : String) : Draft := { d with extra := d.extra ++ [text] }

/-- Takes the switches of one word that need no other word. -/
def takeGroup (d : Draft) (g : Group) : Except Halt Draft :=
  (match g.extra with
    | some text => d.leave text
    | none => d).takeAll g.taken

/-- Takes the switches of one word, the last of which may take the next word as its value. Tells
whether it did. -/
def takeSwitches (d : Draft) (g : Except Misuse Group) (next : Option String) :
    Except Halt (Draft × Bool) :=
  match g with
  | .error m => .error (.misuse m)
  | .ok g =>
    match g.waiting, next with
    | none, _ => (d.takeGroup g).map fun d => (d, false)
    | some s, some value =>
      (d.takeGroup { g with taken := g.taken ++ [(s, value)] }).map fun d => (d, true)
    | some s, none => .error (.misuse (.missingValue s))

/-- Takes the words after the separator. The first is the path unless there is one; if the path is
known, the separator is left over too. -/
def takeValues (d : Draft) (values : List String) : Draft :=
  match d.path, values with
  | some _, _ => { d with extra := d.extra ++ "--" :: values }
  | none, path :: rest => { d with path := some (some path), extra := d.extra ++ rest }
  | none, [] => { d with path := some none }

/-- The texts of values. -/
def texts (words : List Word) : List String :=
  words.filterMap fun
    | .value text => some text
    | _ => none

/-- Takes the words of a command line. A separator right after the path is dropped. -/
def takeWords (d : Draft) : List Word → Except Halt Draft
  | [] => .ok d
  | .value text :: .separator :: rest =>
    .ok (if d.path.isNone then
      { d with path := some (some text), extra := d.extra ++ texts rest }
    else (d.leave text).takeValues (texts rest))
  | .value text :: rest =>
    takeWords (if d.path.isNone then { d with path := some (some text) } else d.leave text) rest
  | .separator :: rest => .ok (d.takeValues (texts rest))
  | .unknown text :: rest => takeWords (d.leave text) rest
  | .switches g :: .value text :: rest =>
    match d.takeSwitches g (some text) with
    | .error h => .error h
    | .ok (d, true) => takeWords d rest
    | .ok (d, false) => takeWords d (.value text :: rest)
  | .switches g :: rest =>
    match d.takeSwitches g none with
    | .error h => .error h
    | .ok (d, _) => takeWords d rest

end Draft

/-- The settings of a run. -/
structure Settings where
  target : Target
  options : Options := {}
  /-- Whether the imports are printed after the code. -/
  imports : Bool := false
  /-- Whether the log is printed. -/
  verbose : Bool := false
  /-- The path of the source, if it is not read from the standard input. -/
  path : Option String := none

/-- The settings that a command line asks for. -/
def Settings.ofArguments (args : List String) : Except Halt Settings :=
  match Word.ofTexts args with
  | .error m => .error (.misuse m)
  | .ok words => do
    let d ← ({} : Draft).takeWords words
    match d.target with
    | none => .error (.misuse .noTarget)
    | some target =>
      if d.extra.isEmpty then
        return { target, options := d.options, imports := d.imports, verbose := d.verbose,
                 path := d.path.join }
      else .error (.misuse (.unrecognized d.extra))

end QueryScribe.CommandLine
