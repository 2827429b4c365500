import QueryScribe.Render.Renderer

/-!
# Calls

A call first has its target written, whose type then says how the call goes on. Most calls check
their arguments and list them; some need the value of an argument rather than its text.
-/

namespace QueryScribe

namespace Tree

/-- The arguments of a call. -/
def callArguments (t : Tree) : List Tree :=
  match t.subtrees.tail.find? (isOf .argList) with
  | some arguments => arguments.subtrees
  | none => []

/-- The operands of a union of options. -/
def flagOperands (t : Tree) : List Tree :=
  let core := t.core
  if core.isOf .expr then core.subtrees else [core]

end Tree

namespace Renderer

variable (r : Renderer)

/-- What is called and how, with the text of its target. -/
structure Callee where
  type : ValueType
  text : String

/-- The text of a call: the target's own form if it has one, else the arguments in parentheses. -/
def callText (c : Callee) (form : Option String) (args : List String) : String :=
  form.getD (c.text ++ "(" ++ ", ".intercalate args ++ ")")

/-- The text of a call that may construct an instance. -/
def construction (c : Callee) (form : Option String) (args : List String) : String :=
  let text := callText c form args
  if c.type.callable = .constructor then r.target.construct c.type text else text

/-- The arguments of a call, checked against the parameters of what is called. -/
def callArguments (idiomatic : Bool) (c : Callee) (t : Tree) : Render (List String) :=
  r.arguments idiomatic c.type.name c.type.parameters t.callArguments

/-- A conversion to a number. A text for a 64-bit integer becomes a literal, and a literal for one
has to fit. -/
def numberCall (idiomatic : Bool) (c : Callee) (t : Tree) : Render String := do
  Render.setType t (← Render.typeNamed c.type.resultName)
  let args ← r.callArguments idiomatic c t
  match args, t.callArguments with
  | text :: _, arg :: _ =>
    let own ← Render.ownTypeOf arg
    let (text, type) ←
      if c.type = .int64Class && own = .string then do
        let digits ← Render.ofFault (Literal.int64Text (← r.stringValue arg))
        pure (← r.literal .long digits, ValueType.long)
      else do
        if c.type = .int64Class && (Signed.ofTree arg).isNumber then
          let value ← r.numericValue arg
          discard (Render.ofFault (Literal.int64 value))
        pure (text, own)
    return r.construction c ((r.target.calls.number c.type).map (· (some (text, type)))) [text]
  | _, _ => return r.construction c ((r.target.calls.number c.type).map (· none)) []

/-- A regular expression of the database. -/
def regexCall (idiomatic : Bool) (c : Callee) (t : Tree) : Render String := do
  Render.setType t c.type
  match ← r.callArguments idiomatic c t with
  | [pattern, options] =>
    let flags := String.ofList (StringToken.removeQuotes options.toList)
    let flags ← Render.ofCause
      (Literal.writeFlags flags r.target.bsonRegexFlags (some acceptedRegexFlags))
    return r.construction c none [pattern, r.target.writeValue flags]
  | args => return r.construction c none args

/-- The code under which code with variables is recorded. -/
def scopedCode : Int := 113

/-- Code, whose variables are a plain document. -/
def codeCall (c : Callee) (t : Tree) : Render String := do
  Render.setType t c.type
  match ← r.callArguments false c t with
  | [code, scope] =>
    Render.touch scopedCode
    Render.use .object
    return r.construction c (r.target.calls.code.map (· code (some scope))) [code, scope]
  | [code] => return r.construction c (r.target.calls.code.map (· code none)) [code]
  | _ => .malformed t

/-- The arguments of a date. Whatever is wrong with an argument, the failure is that of the date. -/
def dateArguments (idiomatic : Bool) (c : Callee) (t : Tree) : Render Unit :=
  tryCatch (discard (r.callArguments idiomatic c t)) fun fault =>
    match fault with
    | .failure f => if f.kind = .argument then r.failAt t .datetimeArguments else throw fault
    | _ => throw fault

/-- A date from its components. -/
def datetimeCall (idiomatic : Bool) (c : Callee) (t : Tree) : Render String := do
  Render.setType t .date
  let args := t.callArguments
  let write (moment : Option Moment) : String :=
    r.construction c (r.target.calls.datetime.map (· c.text moment)) []
  if args.isEmpty then return write none
  else if args.length < 3 then r.failAt t (.datetimeCount args.length)
  else do
    r.dateArguments idiomatic c t
    let parts ← args.mapM fun arg => do
      return Number.int (← Render.ofConversion (← r.numericValue arg).toInt)
    return write (some (← Render.ofCause (Literal.date parts)))

/-- An object identifier from a date, or from a number that stands for one. -/
def fromDatetimeCall (idiomatic : Bool) (c : Callee) (t : Tree) : Render String := do
  Render.setType t (← Render.typeNamed c.type.resultName)
  let args ← r.callArguments idiomatic c t
  match args, t.callArguments with
  | text :: _, arg :: _ =>
    let isNumber := (← Render.typeOf arg) ≠ .date
    if isNumber then Render.use .date
    return callText c (r.target.calls.fromDatetime.map (· c.text text isNumber)) args
  | _, _ => .malformed t

/-- A compiled regular expression, with its options in the form of the target. -/
def compileCall (idiomatic : Bool) (c : Callee) (t : Tree) : Render String := do
  Render.setType t (← Render.typeNamed c.type.resultName)
  let args ← r.callArguments idiomatic c t
  match args, t.callArguments with
  | text :: _, arg :: options =>
    let pattern ← r.stringValue arg
    let flags ← match options with
      | [union] => do
        let types ← union.flagOperands.mapM Render.typeOf
        let flags ← Render.ofCause
          (Literal.regexFlags (types.map fun type => type.flag?.map fun c => String.ofList [c]))
        Render.ofCause (Literal.writeFlags flags r.target.regexFlags)
      | _ => pure ""
    return callText c (r.target.calls.compile.map (· c.text text pattern flags)) args
  | _, _ => .malformed t

/-- An object identifier in its canonical text, or a new one. -/
def objectIdCall (idiomatic : Bool) (c : Callee) (t : Tree) : Render String := do
  Render.setType t c.type
  discard (r.callArguments idiomatic c t)
  let write (hex : Option String) : String :=
    r.construction c (r.target.calls.objectId.map (· c.text hex)) hex.toList
  match t.callArguments with
  | arg :: _ =>
    let hex ← Render.ofCause (Literal.objectId (← r.stringValue arg))
    return write (some (r.target.writeValue hex))
  | [] => return write none

/-- A decimal in its canonical text. -/
def decimal128Call (idiomatic : Bool) (c : Callee) (t : Tree) : Render String := do
  Render.setType t c.type
  discard (r.callArguments idiomatic c t)
  match t.callArguments with
  | arg :: _ =>
    let text ←
      if (← Render.typeOf arg) = .string then r.stringValue arg
      else do Render.ofConversion (← r.numericValue arg).write
    let value := r.target.writeValue (← Render.ofCause (Literal.decimal128 text))
    return r.construction c (r.target.calls.decimal128.map (· c.text value)) [value]
  | [] => .malformed t

/-- A call that lists its arguments. -/
def otherCall (idiomatic : Bool) (c : Callee) (t : Tree) : Render String := do
  if c.type.callable = .none then r.failAt t (.notCallable c.type.name)
  else do
    Render.setType t (← Render.typeNamed c.type.resultName)
    let args ← r.callArguments idiomatic c t
    return r.construction c ((r.target.calls.other c.type).map (· c.text args)) args

/-- A call with a treatment of its own. -/
def treatedCall (idiomatic : Bool) (c : Callee) (t : Tree) : Treatment → Render String
  | .number => r.numberCall idiomatic c t
  | .regex => r.regexCall idiomatic c t
  | .code => r.codeCall c t
  | .datetime => r.datetimeCall idiomatic c t
  | .fromDatetime => r.fromDatetimeCall idiomatic c t
  | .binary => r.failAt t (.unimplemented .binary)
  | .compile => r.compileCall idiomatic c t
  | .objectId => r.objectIdCall idiomatic c t
  | .decimal128 => r.decimal128Call idiomatic c t

/-- A call. -/
def call (idiomatic : Bool) (t : Tree) : Render String := do
  match t.subtrees with
  | target :: _ =>
    let text ← r.visit idiomatic target
    let type ← Render.typeOf target
    match type.treatment? with
    | some treatment =>
      Render.log (.call type treatment)
      r.treatedCall idiomatic ⟨type, text⟩ t treatment
    | none => r.otherCall idiomatic ⟨type, text⟩ t
  | [] => .malformed t

end Renderer

end QueryScribe
