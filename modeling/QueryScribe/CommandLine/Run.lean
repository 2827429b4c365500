import QueryScribe.CommandLine.Settings

/-!
# Runs

A run compiles one source and says what is printed, in which stream, and with which status the
program ends.
-/

namespace QueryScribe

/-- The line of the log for an event. -/
def Event.line : Event → String
  | call callee treatment =>
    "DEBUG bsontranspile.walker: call to " ++ callee.name ++ " handled by " ++ treatment.label
  | plainDocument reason =>
    "DEBUG bsontranspile.builders: rendering a plain document: " ++ reason.message

namespace CommandLine

/-- How a run ends. -/
inductive Outcome
  | done (status : Nat) (out err : String)
  /-- Writing stopped for another reason than a failure of the source. -/
  | stopped (fault : Fault)

/-- Lines as a text. -/
def lines (texts : List String) : String := String.join (texts.map (· ++ "\n"))

/-- The log of a compile, from its start to its end. -/
def logLines (target : Target) (source : String) (c : Compilation) : List String :=
  let entry (text : String) : String := "DEBUG bsontranspile.transpiler: " ++ text
  let count (text : String) : String := Numeral.decimal text.length
  entry ("compiling " ++ count source ++ " characters for " ++ target.name) ::
    (c.log.reverse.map Event.line ++
      match c.result with
      | .ok output =>
        [entry ("compiled " ++ count output.code ++ " characters for " ++ target.name)]
      | .error (.failure f) =>
        [entry ("compile for " ++ target.name ++ " failed: " ++ f.kind.code ++ " " ++ f.text)]
      | .error _ => [])

/-- Compiles a source as the settings say. -/
def Settings.run (s : Settings) (text : String) : Outcome :=
  let source := String.ofList (Text.unifyBreaks text.toList)
  let c := compileWithLog s.target s.options source
  let log := if s.verbose then logLines s.target source c else []
  match c.result with
  | .ok output =>
    let imports := if s.imports && !output.imports.isEmpty then ["", output.imports] else []
    .done 0 (lines (output.code :: imports)) (lines log)
  | .error (.failure f) =>
    .done 1 "" (lines (log ++ ["error[" ++ f.kind.code ++ "]: " ++ f.text]))
  | .error fault => .stopped fault

/-- The last line of what is printed for a wrong command line. -/
def Misuse.report (m : Misuse) : String := "bsontranspile: error: " ++ m.message

/-- How the program is called. -/
def usage : String :=
  "usage: bsontranspile [-h] -t \x7bjava,python\x7d [--no-idiomatic] [--imports] " ++
    "[--max-length MAX_LENGTH] [-v] [source]"

end CommandLine

end QueryScribe
