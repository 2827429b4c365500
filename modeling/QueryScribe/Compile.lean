import QueryScribe.Render.Visit
import QueryScribe.Syntax.Parser

/-!
# Compiling a source
-/

namespace QueryScribe

/-- How a source is compiled. -/
structure Options where
  /-- Whether documents become queries where they can. -/
  idiomatic : Bool := true
  /-- The greatest number of characters that a source may have. -/
  limit : Option Int := none
  /-- The characters that escapes may call by their names. -/
  names : CharacterNames := default

/-- A source as it is written: in its normal form, with the names that its escapes may use. -/
def Options.source (options : Options) (source : String) : Source :=
  ⟨normalize source, options.names⟩

/-- What a compile gives. -/
structure Output where
  code : String
  imports : String
deriving DecidableEq, Repr

/-- A compile with what it logged, the last event first. -/
structure Compilation where
  result : Except Fault Output
  log : List Event

/-- Whether a source is longer than allowed. -/
def Options.exceeded (options : Options) (length : Nat) : Option Int :=
  options.limit.filter fun limit => limit < length

/-- The text without blanks around it. -/
def trimmed (text : String) : String := String.ofList (Text.trim text.toList)

/-- Compiles a source, with the log. -/
def compileWithLog (target : Target) (options : Options) (source : String) : Compilation :=
  match options.exceeded source.length with
  | some limit => ⟨.error (.failure ⟨.sourceLength source.length limit, none⟩), []⟩
  | none =>
    match parse source with
    | .error fault => ⟨.error (.failure (fault.toFailure (normalize source))), []⟩
    | .ok tree =>
      let (result, journal) := (render target (options.source source) options.idiomatic tree).run
        { idiomatic := options.idiomatic }
      let imports := journal.notes.usage.render target.imports
      ⟨result.map fun code => ⟨trimmed code, imports⟩, journal.log⟩

/-- Compiles a source for a target. -/
def compile (target : Target) (options : Options) (source : String) : Except Fault Output :=
  (compileWithLog target options source).result

/-- Compiles for one target, with the imports of the last compile if it gave any. -/
structure Session where
  target : Target
  options : Options := {}
  imports : String := ""

/-- Compiles a source. A compile that fails leaves no imports. -/
def Session.compile (s : Session) (source : String) : Except Fault Output × Session :=
  let result := QueryScribe.compile s.target s.options source
  (result, { s with imports := match result with
    | .ok output => output.imports
    | .error _ => "" })

end QueryScribe
