import QueryScribe.Proofs.Building.Reading
import QueryScribe.Proofs.Coherence

/-!
# What can be written

Whether a node can be written does not depend on what was noted before. `Tree.Admitted` says what has
to hold of the node itself: a name is known, a call has arguments that fit, the texts of its literals
have values, and so on, all in terms of natural types. A node can be written if it is admitted and
all its parts can be written (`Tree.Writable`). A document that becomes a query need not write all that
it holds: it looks through some nodes (`Tree.LookedThrough`) and passes over the values of some entries
(`Tree.PassedOver`).
-/

namespace QueryScribe

/-- What a tree is written for, and the names that escapes in it may use. -/
structure Setting where
  target : Target
  names : CharacterNames

/-- Whether documents may become queries: in the idiomatic style, for a target with helpers. -/
def Setting.Queries (setting : Setting) (idiomatic : Bool) : Prop :=
  idiomatic ∧ setting.target.helpers.isSome

/-- The setting of a renderer. -/
def Renderer.setting (r : Renderer) : Setting := ⟨r.target, r.source.names⟩

/-! ## Values -/

/-- The value of a view as a number with signs. -/
def Signed.value? : Signed → Option Number
  | literal _ core text => (Literal.number text core.natural).toOption
  | signed _ sign _ view =>
    view.value?.bind fun value =>
      if sign = "-" then some value.neg
      else if sign = "~" then value.toInt.toOption.map fun n => .int (-n - 1)
      else some value
  | other _ => none

namespace Tree

/-- The value of a number with signs. -/
def number? (t : Tree) : Option Number := (Signed.ofTree t).value?

/-- The integer part of a number with signs. -/
def integer? (t : Tree) : Option Int := t.number?.bind fun value => value.toInt.toOption

/-- The value of a string literal. -/
def stringValue? (names : CharacterNames) (t : Tree) : Option String :=
  if t.core.isOf .stringLiteral then
    (StringToken.valueOf? names (t.core.tokens.map (·.text))).map StringToken.toText
  else none

/-- The body of a string literal. -/
def stringBody (t : Tree) : String :=
  String.ofList (t.tokens.flatMap fun token => StringToken.body token.text.toList)

end Tree

/-! ## Options of regular expressions -/

/-- A character that is no quote, no option and no mark of a string. -/
def isForeign (c : Char) : Bool :=
  !StringToken.isMark c && c ≠ '"' && c ≠ '\'' && !acceptedRegexFlags.contains c

/-- The text of flags that a regular expression of the database may be given as. -/
def Target.acceptsFlags (target : Target) (text : String) : Bool :=
  (Literal.writeFlags (String.ofList (StringToken.removeQuotes text.toList)) target.bsonRegexFlags
    (some acceptedRegexFlags)).isOk

/-- A target that writes operations with characters that no option has, and nothing after statements,
and writes all truth values. -/
structure Target.Marked (target : Target) : Prop where
  conjunction : ∀ a b texts, ∃ c ∈ (target.conjunction (a :: b :: texts)).toList, isForeign c
  disjunction : ∀ a b texts, ∃ c ∈ (target.disjunction (a :: b :: texts)).toList, isForeign c
  power : ∀ a b, ∃ c ∈ (target.power a b).toList, isForeign c
  operate : ∀ op a b, ∃ c ∈ (target.operate op a b).toList, isForeign c
  endOfStatement : target.endOfStatement = ""
  flag : ∀ text, (target.writeLiteral .bool text).isOk

/-- The text that is written of a node whose type is that of strings: the literal, or else something
that cannot pass for options. -/
def Spelled (target : Target) (t : Tree) (text : String) : Prop :=
  target.Marked → t.natural = .string →
    if t.core.isOf .stringLiteral then text = target.writeString t.core.stringBody
    else ∃ c ∈ text.toList, isForeign c

/-! ## Calls -/

/-- A slot accepts a type, by its name or as one of any number. -/
def Slot.admits (slot : Slot) (type : ValueType) : Bool :=
  slot.accepts type || slot.accepts .numeric && (type.isNumeric || type.isNumericWrapper)

/-- A slot takes a node: its type is accepted, or it is a number that can be written as the type that
the slot asks for. -/
def Slot.Takes (target : Target) (slot : Slot) (t : Tree) : Prop :=
  slot.admits t.natural ∨
    t.natural.isNumeric ∧ ∃ type, slot.numeric? = some type ∧ t.CastsTo target type

/-- Each argument is taken by its slot, and no slot that needs an argument is left. -/
def ArgumentsFit (target : Target) : List Slot → List Tree → Prop
  | slots, [] => ∀ slot ∈ slots.head?, slot.mayBeAbsent
  | [], _ :: _ => False
  | slot :: slots, t :: ts => slot.Takes target t ∧ ArgumentsFit target slots ts

/-- What a call with a treatment of its own needs of its arguments. -/
def Treatment.Fits (setting : Setting) (type : ValueType) (args : List Tree) : Treatment → Prop
  | .number => type = .int64Class → ∀ arg ∈ args.head?,
      if arg.natural = .string then
        ∃ text digits, arg.stringValue? setting.names = some text ∧
          Literal.int64Text text = .ok digits ∧ (setting.target.writeLiteral .long digits).isOk
      else (Signed.ofTree arg).isNumber →
        ∃ value, arg.number? = some value ∧ (Literal.int64 value).isOk
  | .regex => setting.target.Marked → ∀ options ∈ args[1]?, options.core.isOf .stringLiteral ∧
      setting.target.acceptsFlags (setting.target.writeString options.core.stringBody)
  | .datetime => args = [] ∨ 3 ≤ args.length ∧ ∃ components : List Int,
      args.mapM Tree.integer? = some components ∧ (Literal.date (components.map .int)).isOk
  | .compile => (∀ arg ∈ args.head?, (arg.stringValue? setting.names).isSome) ∧
      ∀ union ∈ args[1]?, ∀ operand ∈ union.flagOperands, operand.natural.flag?.isSome
  | .objectId => ∀ arg ∈ args.head?, ∃ text, arg.stringValue? setting.names = some text ∧
      (Literal.objectId text).isOk
  | .decimal128 => ∀ arg ∈ args.head?, ∃ text,
      (if arg.natural = .string then arg.stringValue? setting.names
        else arg.number?.bind (·.write.toOption)) = some text ∧ (Literal.decimal128 text).isOk
  | .binary => False
  | .code | .fromDatetime => True

/-- What is called can be called, with these arguments. -/
def CallFits (setting : Setting) (type : ValueType) (args : List Tree) : Prop :=
  ArgumentsFit setting.target type.parameters args ∧
    match type.treatment? with
    | some treatment => treatment.Fits setting type args
    | none => type.callable ≠ .none

/-! ## Nodes -/

namespace Tree

/-- Nothing of a node itself stands against writing it. -/
def Admitted (setting : Setting) (t : Tree) : Prop :=
  t.isRefused = false ∧
    match t.rule? with
    | some .identifier => t.firstToken?.any fun token => (ValueType.ofSymbol? token.text).isSome
    | some .attributeAccess => ∀ name ∈ t.tokens.head?,
        (t.calleeType.member? name.text).isSome ∨ t.calleeType.isDomain = false
    | some .functionCall => CallFits setting t.calleeType t.callArguments
    | some rule => rule.literalKinds ≠ [] →
        t.firstToken?.any fun token => (setting.target.writeLiteral t.natural token.text).isOk
    | none => True

/-- A node with one child through which a query looks at a key, a flag, a document or an array. -/
def LookedThrough (root t : Tree) : Prop :=
  t.isPassThrough ∧ ∃ d ∈ root.nodes, d.isOf .objectLiteral ∧ ∃ s passed,
    (Shape.ofTree d).Reads s ∧ s.Passes passed t

/-- A value of a document that a query passes over. -/
def PassedOver (root t : Tree) : Prop :=
  ∃ d ∈ root.nodes, d.isOf .objectLiteral ∧ ∃ context s e, (Shape.ofTree d).Below context s ∧
    e ∈ s.entries ∧ Shape.Drops context s.entries e ∧ e.2.tree = t

/-- A node can be written: it is admitted, and its parts can be written. Where documents become
queries, there may be nodes that are looked through and parts that are passed over. -/
inductive Writable (setting : Setting) (root : Tree) (queries : Prop) : Tree → Prop
  | intro {t : Tree} (admitted : ¬ (queries ∧ LookedThrough root t) → t.Admitted setting)
    (parts : ∀ c ∈ t.parts, ¬ (queries ∧ PassedOver root c) → Writable setting root queries c) :
    Writable setting root queries t

variable {setting : Setting} {queries queries' : Prop} {root root' s t : Tree}

theorem Writable.mono (h : Writable setting root queries t) (hqueries : queries → queries') :
    Writable setting root queries' t := by
  induction h with
  | intro admitted _ ih =>
    exact .intro (fun hno => admitted fun h => hno ⟨hqueries h.1, h.2⟩) fun c hc hno =>
      ih c hc fun h => hno ⟨hqueries h.1, h.2⟩

theorem Writable.of_false (h : Writable setting root False t) : Writable setting root' queries t := by
  induction h with
  | intro admitted _ ih => exact .intro (fun _ => admitted And.left) fun c hc _ => ih c hc And.left

theorem Writable.of_mem_nodes (h : Writable setting root False t) (hs : s ∈ t.nodes)
    (hcontainer : s.isContainer = false) : Writable setting root False s := by
  induction h with
  | intro admitted parts ih =>
    rcases exists_part_of_mem_nodes hs with rfl | h | ⟨c, hc, hs⟩
    · exact .intro admitted parts
    · rw [hcontainer] at h
      cases h
    · exact ih c hc And.left hs

/-- A node below one that can be written is admitted, or a query looks through it, or it is below a
value that a query passes over. -/
theorem Writable.admitted_or (h : Writable setting root queries t) (hs : s ∈ t.nodes)
    (hcontainer : s.isContainer = false) :
    s.Admitted setting ∨
      queries ∧ (LookedThrough root s ∨ ∃ c, PassedOver root c ∧ s ∈ nodes c) := by
  induction h with
  | @intro t admitted _ ih =>
    rcases exists_part_of_mem_nodes hs with rfl | h | ⟨c, hc, hsc⟩
    · by_cases hthrough : queries ∧ LookedThrough root s
      · exact .inr ⟨hthrough.1, .inl hthrough.2⟩
      · exact .inl (admitted hthrough)
    · rw [hcontainer] at h
      cases h
    · by_cases hover : queries ∧ PassedOver root c
      · exact .inr ⟨hover.1, .inr ⟨c, hover.2, hsc⟩⟩
      · exact ih c hc hover hsc

theorem isContainer_of_isRefused (h : s.isRefused) : s.isContainer = false := by
  refine Bool.eq_false_iff.2 fun hcontainer => ?_
  cases s with
  | leaf => cases hcontainer
  | node =>
    rw [isRefused, rule?, Option.any_some, Rule.isRefused_of_isContainer hcontainer] at h
    cases h

end Tree

end QueryScribe
