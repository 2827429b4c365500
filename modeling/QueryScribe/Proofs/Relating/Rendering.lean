import QueryScribe.Proofs.Relating.Correspondence
import QueryScribe.Render.Visit

/-!
# Writing two trees side by side

Whatever is written of a node comes down to a few steps: failing, handling a failure, asking for a
type, noting a type or a use, logging, and writing a node below. A relation between actions that
sequencing keeps (`Congruence`) and that these steps have for trees that correspond
(`Renderer.Related`) therefore holds between the steps that write such trees (`Related.step`), whatever
their rule.

A property of single actions is a relation that leaves the second one out (`Sequential.congruence`),
so what all steps of writing have in common is shown in this way as well.
-/

namespace QueryScribe

open List

/-! ## Relations that sequencing keeps -/

section Sequencing

variable {m : Type → Type} [Monad m]

/-- A property of actions that returning a value has and that sequencing keeps. -/
structure Sequential (P : (α : Type) → m α → Prop) : Prop where
  pure : ∀ {α : Type} (a : α), P α (pure a)
  bind : ∀ {α β : Type} {x : m α} {f : α → m β}, P α x → (∀ a, P β (f a)) → P β (x >>= f)

/-- A relation of actions that returning one value has and that sequencing keeps, if both go on from
each value in related ways. -/
structure Congruence (P : (α : Type) → m α → m α → Prop) : Prop where
  pure : ∀ {α : Type} (a : α), P α (pure a) (pure a)
  bind : ∀ {α β : Type} {x x' : m α} {f f' : α → m β}, P α x x' → (∀ a, P β (f a) (f' a)) →
    P β (x >>= f) (x' >>= f')

theorem Sequential.congruence {P : (α : Type) → m α → Prop} (hP : Sequential P) :
    Congruence fun α x _ => P α x :=
  ⟨hP.pure, hP.bind⟩

namespace Congruence

variable {P : (α : Type) → m α → m α → Prop} (hP : Congruence P) {α β γ : Type}

include hP

theorem map [LawfulMonad m] {x x' : m α} (f : α → β) (h : P α x x') : P β (f <$> x) (f <$> x') := by
  rw [map_eq_pure_bind, map_eq_pure_bind]
  exact hP.bind h fun a => hP.pure (f a)

theorem mapM [LawfulMonad m] {R : α → β → Prop} {f : α → m γ} {f' : β → m γ} {l : List α}
    {l' : List β} (hl : Forall₂ R l l') (h : ∀ {a b}, R a b → P γ (f a) (f' b)) :
    P (List γ) (l.mapM f) (l'.mapM f') := by
  induction hl with
  | nil => exact hP.pure []
  | cons hab _ ih =>
    rw [mapM_cons, mapM_cons]
    exact hP.bind (h hab) fun b => hP.bind ih fun bs => hP.pure (b :: bs)

theorem foldlM {R : α → β → Prop} {f : γ → α → m γ} {f' : γ → β → m γ} {l : List α} {l' : List β}
    (hl : Forall₂ R l l') (h : ∀ c {a b}, R a b → P γ (f c a) (f' c b)) (c : γ) :
    P γ (l.foldlM f c) (l'.foldlM f' c) := by
  induction hl generalizing c with
  | nil => exact hP.pure c
  | cons hab _ ih =>
    rw [foldlM_cons, foldlM_cons]
    exact hP.bind (h c hab) ih

end Congruence

namespace Sequential

variable {P : (α : Type) → m α → Prop} (hP : Sequential P) {α β : Type}

include hP

theorem map [LawfulMonad m] {x : m α} (f : α → β) (h : P α x) : P β (f <$> x) := by
  rw [map_eq_pure_bind]
  exact hP.bind h fun a => hP.pure (f a)

theorem mapM [LawfulMonad m] {f : α → m β} {l : List α} (h : ∀ a ∈ l, P β (f a)) :
    P (List β) (l.mapM f) := by
  induction l with
  | nil => exact hP.pure []
  | cons a l ih =>
    rw [mapM_cons]
    refine hP.bind (h a (.head _)) fun b => ?_
    exact hP.bind (ih fun c hc => h c (mem_cons_of_mem a hc)) fun bs => hP.pure (b :: bs)

end Sequential

end Sequencing

/-! ## Types by their names -/

namespace ValueType

/-- The type of a call. -/
def result (t : ValueType) : ValueType := (ofName? t.resultName).getD t

theorem ofName?_resultName (t : ValueType) : ofName? t.resultName = some t.result := by
  cases t with
  | regexFlag flag => rfl
  | _ => rfl

end ValueType

namespace Slot

/-- The type that a slot has numbers written as. -/
def numeric? (s : Slot) : Option ValueType := s.numericName?.bind ValueType.ofName?

theorem ofName?_of_numericName? {s : Slot} {name : String} (h : s.numericName? = some name) :
    .named name ∈ s ∧ ∃ type : ValueType, type.isNumeric ∧ type.name = name ∧
      ValueType.ofName? name = some type := by
  obtain ⟨choice, hmem, hchoice⟩ := List.exists_of_findSome?_eq_some h
  cases choice with
  | absent => cases hchoice
  | named name' =>
    obtain ⟨hnumeric, hname⟩ := Option.ite_none_right_eq_some.1 hchoice
    obtain rfl : name' = name := Option.some.inj hname
    refine ⟨hmem, ?_⟩
    simp only [numericNames, contains_iff_mem, mem_cons, not_mem_nil, or_false] at hnumeric
    rcases hnumeric with rfl | rfl | rfl | rfl | rfl | rfl
    all_goals exact ⟨_, rfl, rfl, rfl⟩

theorem of_numeric? {s : Slot} {type : ValueType} (h : s.numeric? = some type) :
    type.isNumeric ∧ s.accepts type := by
  obtain ⟨name, hname, htype⟩ := Option.bind_eq_some_iff.1 h
  obtain ⟨hmem, type', hnumeric, rfl, htype'⟩ := ofName?_of_numericName? hname
  obtain rfl : type' = type := Option.some.inj (htype'.symm.trans htype)
  exact ⟨hnumeric, contains_iff_mem.2 hmem⟩

end Slot

namespace Render

theorem typeNamed_resultName (t : ValueType) : typeNamed t.resultName = pure t.result := by
  rw [typeNamed, t.ofName?_resultName]

theorem typeNamed_of_numericName? {s : Slot} {name : String} (h : s.numericName? = some name) :
    ∃ type, s.numeric? = some type ∧ typeNamed name = pure type := by
  obtain ⟨-, type, -, -, htype⟩ := Slot.ofName?_of_numericName? h
  exact ⟨type, by rw [Slot.numeric?, h]; exact htype, by rw [typeNamed, htype]⟩

end Render

/-! ## Steps of writing -/

/-- Two faults of one kind, whatever they tell. -/
inductive Fault.Alike : Fault → Fault → Prop
  | failure {f g : Failure} : f.kind = g.kind → Alike (.failure f) (.failure g)
  | conversion (f g : ConversionFault) : Alike (.conversion f) (.conversion g)
  | unknownType (name name' : String) : Alike (.unknownType name) (.unknownType name')
  | malformed (label label' : String) : Alike (.malformed label) (.malformed label')

theorem Fault.Alike.refl : (e : Fault) → e.Alike e
  | .failure _ => .failure rfl
  | .conversion f => .conversion f f
  | .unknownType name => .unknownType name name
  | .malformed label => .malformed label label

namespace Renderer

theorem castAll_cons (t : Tree) (ts : List Tree) (type own : ValueType) :
    castAll (t :: ts) type own = Render.note (·.cast t type own) >>= fun _ => castAll ts type own :=
  rfl

/-- Two renderers for one target that write trees which correspond in related ways. Documents are
tried as queries in the idiomatic style only. -/
structure Related (r r' : Renderer) (b : Bool) (T : Tree → Tree → Prop)
    (P : (α : Type) → Render α → Render α → Prop) : Prop where
  target : r'.target = r.target
  names : r'.source.names = r.source.names
  trees : Tree.Correspondence T
  congruence : Congruence P
  throw : ∀ {α : Type} {e e' : Fault}, e.Alike e' → P α (throw e) (throw e')
  tryCatch : ∀ {α : Type} {m m' : Render α} {handle handle' : Fault → Render α}, P α m m' →
    (∀ {e e' : Fault}, e.Alike e' → P α (handle e) (handle' e')) →
      P α (tryCatch m handle) (tryCatch m' handle')
  typeOf : ∀ {t t' : Tree}, T t t' → P _ (Render.typeOf t) (Render.typeOf t')
  ownTypeOf : ∀ {t t' : Tree}, T t t' → P _ (Render.ownTypeOf t) (Render.ownTypeOf t')
  setType : ∀ {t t' : Tree}, T t t' → ∀ type, P _ (Render.setType t type) (Render.setType t' type)
  cast : ∀ {t t' : Tree}, T t t' → ∀ type own : ValueType,
    P _ (Render.note (·.cast t type own)) (Render.note (·.cast t' type own))
  touch : ∀ code : Int, P _ (Render.touch code) (Render.touch code)
  log : ∀ event event' : Event, P _ (Render.log event) (Render.log event')
  visit : ∀ {t t' : Tree}, T t t' → P _ (r.visit b t) (r'.visit b t')
  plain : ∀ {t t' : Tree}, T t t' → P _ (r.visit false t) (r'.visit false t')
  query? : b = true → ∀ {entries entries' : List (Tree × Shape)},
    List.Forall₂ (Prod.RProd T (Shape.Both T)) entries entries' →
      P _ (r.query? entries) (r'.query? entries')

namespace Related

variable {r r' : Renderer} {b : Bool} {T : Tree → Tree → Prop}
  {P : (α : Type) → Render α → Render α → Prop} (hr : r.Related r' b T P) {α β : Type} {t t' : Tree}
  (h : T t t')

include hr

theorem pure (a : α) : P α (pure a) (pure a) := hr.congruence.pure a

theorem bind {x x' : Render α} {f f' : α → Render β} (hx : P α x x') (hf : ∀ a, P β (f a) (f' a)) :
    P β (x >>= f) (x' >>= f') := hr.congruence.bind hx hf

/-- In the plain style no document is tried as a query, and all nodes are written plainly. -/
theorem toPlain : r.Related r' false T P :=
  { hr with visit := hr.plain, query? := fun h => nomatch h }

theorem fail {cause cause' : Cause} (hkind : cause.kind = cause'.kind) :
    P α (Render.fail cause) (Render.fail cause') := hr.throw (.failure hkind)

theorem failAt {cause cause' : Cause} (hkind : cause.kind = cause'.kind) (t t' : Tree) :
    P α (r.failAt t cause) (r'.failAt t' cause') := hr.throw (.failure hkind)

theorem malformed (t t' : Tree) : P α (Render.malformed t) (Render.malformed t') :=
  hr.throw (.malformed _ _)

theorem ofCause (e : Except Cause α) : P α (Render.ofCause e) (Render.ofCause e) := by
  cases e with
  | ok a => exact hr.pure a
  | error cause => exact hr.fail rfl

theorem ofConversion (e : Except ConversionFault α) :
    P α (Render.ofConversion e) (Render.ofConversion e) := by
  cases e with
  | ok a => exact hr.pure a
  | error f => exact hr.throw (.conversion f f)

theorem ofFault (e : Except Fault α) : P α (Render.ofFault e) (Render.ofFault e) := by
  cases e with
  | ok a => exact hr.pure a
  | error fault => exact hr.throw (.refl fault)

theorem typeNamed (name : String) : P _ (Render.typeNamed name) (Render.typeNamed name) := by
  unfold Render.typeNamed
  split
  · exact hr.pure _
  · exact hr.throw (.refl _)

theorem use (type : ValueType) : P _ (Render.use type) (Render.use type) := hr.touch _

variable {ts ts' : List Tree}

theorem visitAll (hts : Forall₂ T ts ts') :
    P _ (ts.mapM (r.visit b)) (ts'.mapM (r'.visit b)) :=
  hr.congruence.mapM hts hr.visit

/-! ## Values and casts -/

theorem literal (type : ValueType) (text : String) : P _ (r.literal type text) (r'.literal type text) := by
  unfold Renderer.literal
  rw [hr.target]
  exact hr.ofFault _

include h in
theorem stringValue : P _ (r.stringValue t) (r'.stringValue t') := by
  have hcore := hr.trees.core h
  unfold Renderer.stringValue
  simp only [hr.trees.isOf hcore, hr.trees.texts hcore, hr.names]
  split
  · split
    · exact hr.pure _
    · exact hr.fail rfl
  · exact hr.fail rfl

theorem signedValue {view view' : Signed} (hview : Signed.Both T view view') (t t' : Tree) :
    P _ (r.signedValue t view) (r'.signedValue t' view') := by
  induction hview generalizing t t' with
  | literal _ hcore => exact hr.bind (hr.ownTypeOf hcore) fun _ => hr.ofCause _
  | signed _ _ _ ih =>
    refine hr.bind (ih _ _) fun value => ?_
    split
    · exact hr.pure _
    · split
      · exact hr.bind (hr.ofConversion _) fun _ => hr.pure _
      · exact hr.pure _
  | other => exact hr.fail rfl

include h in
theorem numericValue : P _ (r.numericValue t) (r'.numericValue t') :=
  hr.signedValue (Signed.both_ofTree hr.trees h) t t'

theorem castAll {passed passed' : List Tree} (hpassed : Forall₂ T passed passed')
    (type own : ValueType) : P _ (castAll passed type own) (Renderer.castAll passed' type own) := by
  induction hpassed with
  | nil => exact hr.pure ()
  | cons hs _ ih =>
    rw [castAll_cons, castAll_cons]
    exact hr.bind (hr.cast hs type own) fun _ => ih

include h in
theorem castSigned (expected : ValueType) {view view' : Signed} (hview : Signed.Both T view view') :
    P _ (r.castSigned b expected t view) (r'.castSigned b expected t' view') := by
  induction hview generalizing t t' with
  | literal hpassed =>
    refine hr.bind (hr.ownTypeOf h) fun own => hr.bind (hr.ofCause _) fun value => ?_
    refine hr.bind (hr.use _) fun _ => hr.bind (hr.ofConversion _) fun text => ?_
    exact hr.bind (hr.literal _ _) fun _ => hr.bind (hr.castAll hpassed _ _) fun _ => hr.pure _
  | signed hpassed hoperand _ ih =>
    refine hr.bind (hr.ownTypeOf h) fun own => hr.bind (ih hoperand) fun written => ?_
    exact hr.bind (hr.castAll hpassed _ _) fun _ => hr.pure _
  | other hpassed =>
    refine hr.bind (hr.ownTypeOf h) fun own => hr.bind (hr.visit h) fun written => ?_
    exact hr.bind (hr.castAll hpassed _ _) fun _ => hr.pure _

include h in
theorem cast? (slot : Slot) : P _ (r.cast? b slot t) (r'.cast? b slot t') := by
  refine hr.bind (hr.visit h) fun text => hr.bind (hr.typeOf h) fun type => ?_
  split
  · exact hr.pure _
  · split
    · split
      · exact hr.bind (hr.typeNamed _) fun _ =>
          hr.bind (hr.castSigned h _ (Signed.both_ofTree hr.trees h)) fun _ => hr.pure _
      · exact hr.pure _
    · exact hr.pure _

theorem argumentsFrom (callee : String) (index : Nat) (slots : List Slot) (hts : Forall₂ T ts ts') :
    P _ (r.argumentsFrom b callee index slots ts) (r'.argumentsFrom b callee index slots ts') := by
  induction slots generalizing ts ts' index with
  | nil => exact hr.pure _
  | cons slot slots ih =>
    cases hts with
    | nil =>
      unfold Renderer.argumentsFrom
      split
      · exact hr.pure _
      · exact hr.fail rfl
    | cons ht hts =>
      refine hr.bind (hr.cast? ht slot) fun text? => ?_
      cases text? with
      | some text => exact hr.bind (ih _ hts) fun _ => hr.pure _
      | none => exact hr.bind (hr.typeOf ht) fun _ => hr.fail rfl

theorem arguments (callee : String) (slots : List Slot) (hts : Forall₂ T ts ts') :
    P _ (r.arguments b callee slots ts) (r'.arguments b callee slots ts') := by
  have hall := hr.argumentsFrom callee 0 slots hts
  have hlength := hts.length_eq
  unfold Renderer.arguments
  cases hts with
  | nil =>
    split
    · exact hr.pure _
    · split
      · exact hr.pure _
      · exact hr.fail rfl
    · rename_i heq
      cases heq
  | cons =>
    simp only [hlength]
    split
    · exact hr.fail rfl
    · exact hall

/-! ## Calls -/

variable (c : Callee)

theorem construction (form : Option String) (args : List String) :
    r'.construction c form args = r.construction c form args := by
  unfold Renderer.construction
  rw [hr.target]

include h

theorem callArguments : P _ (r.callArguments b c t) (r'.callArguments b c t') :=
  hr.arguments _ _ (hr.trees.callArguments h)

theorem numberCall : P _ (r.numberCall b c t) (r'.numberCall b c t') := by
  have hargs := hr.trees.callArguments h
  refine hr.bind (hr.typeNamed _) fun type => hr.bind (hr.setType h type) fun _ => ?_
  refine hr.bind (hr.callArguments h c) fun texts => ?_
  simp only [hr.construction, hr.target]
  generalize t.callArguments = ts, t'.callArguments = ts' at hargs
  cases texts with
  | nil => exact hr.pure _
  | cons text texts =>
    cases hargs with
    | nil => exact hr.pure _
    | cons harg _ =>
      refine hr.bind (hr.ownTypeOf harg) fun own => ?_
      simp only [(Signed.both_ofTree hr.trees harg).isNumber]
      split
      · refine hr.bind (hr.stringValue harg) fun value => hr.bind (hr.ofFault _) fun digits => ?_
        exact hr.bind (hr.literal _ _) fun _ => hr.bind (hr.pure _) fun _ => hr.pure _
      · split
        · refine hr.bind (hr.numericValue harg) fun value => ?_
          exact hr.bind (hr.congruence.map _ (hr.ofFault _)) fun _ => hr.bind (hr.pure _) fun _ =>
            hr.pure _
        · exact hr.bind (hr.pure _) fun _ => hr.pure _

theorem regexCall : P _ (r.regexCall b c t) (r'.regexCall b c t') := by
  refine hr.bind (hr.setType h _) fun _ => hr.bind (hr.callArguments h c) fun texts => ?_
  simp only [hr.construction, hr.target]
  split
  · exact hr.bind (hr.ofCause _) fun _ => hr.pure _
  · exact hr.pure _

theorem codeCall : P _ (r.codeCall c t) (r'.codeCall c t') := by
  refine hr.bind (hr.setType h _) fun _ => hr.bind (hr.toPlain.callArguments h c) fun texts => ?_
  simp only [hr.construction, hr.target]
  split
  · exact hr.bind (hr.touch _) fun _ => hr.bind (hr.use _) fun _ => hr.pure _
  · exact hr.pure _
  · exact hr.malformed _ _

theorem dateArguments : P _ (r.dateArguments b c t) (r'.dateArguments b c t') := by
  refine hr.tryCatch (hr.congruence.map _ (hr.callArguments h c)) fun halike => ?_
  cases halike with
  | failure hkind =>
    dsimp only
    rw [hkind]
    split
    · exact hr.failAt rfl _ _
    · exact hr.throw (.failure hkind)
  | conversion f g => exact hr.throw (.conversion f g)
  | unknownType name name' => exact hr.throw (.unknownType name name')
  | malformed label label' => exact hr.throw (.malformed label label')

theorem datetimeCall : P _ (r.datetimeCall b c t) (r'.datetimeCall b c t') := by
  have hargs := hr.trees.callArguments h
  refine hr.bind (hr.setType h _) fun _ => ?_
  simp only [hr.construction, hr.target]
  generalize t.callArguments = ts, t'.callArguments = ts' at hargs
  have hempty : ts'.isEmpty = ts.isEmpty := by cases hargs <;> rfl
  rw [hempty, ← hargs.length_eq]
  split
  · exact hr.pure _
  · split
    · exact hr.failAt rfl _ _
    · refine hr.bind (hr.dateArguments h c) fun _ => hr.bind ?_ fun parts => ?_
      · exact hr.congruence.mapM hargs fun harg =>
          hr.bind (hr.numericValue harg) fun _ => hr.bind (hr.ofConversion _) fun _ => hr.pure _
      · exact hr.bind (hr.ofCause _) fun _ => hr.pure _

theorem fromDatetimeCall : P _ (r.fromDatetimeCall b c t) (r'.fromDatetimeCall b c t') := by
  have hargs := hr.trees.callArguments h
  refine hr.bind (hr.typeNamed _) fun type => hr.bind (hr.setType h type) fun _ => ?_
  refine hr.bind (hr.callArguments h c) fun texts => ?_
  simp only [hr.target]
  generalize t.callArguments = ts, t'.callArguments = ts' at hargs
  cases texts with
  | nil => exact hr.malformed _ _
  | cons text texts =>
    cases hargs with
    | nil => exact hr.malformed _ _
    | cons harg _ =>
      refine hr.bind (hr.typeOf harg) fun type => ?_
      split
      · exact hr.bind (hr.use _) fun _ => hr.pure _
      · exact hr.pure _

theorem compileCall : P _ (r.compileCall b c t) (r'.compileCall b c t') := by
  have hargs := hr.trees.callArguments h
  refine hr.bind (hr.typeNamed _) fun type => hr.bind (hr.setType h type) fun _ => ?_
  refine hr.bind (hr.callArguments h c) fun texts => ?_
  simp only [hr.target]
  generalize t.callArguments = ts, t'.callArguments = ts' at hargs
  cases texts with
  | nil => exact hr.malformed _ _
  | cons text texts =>
    cases hargs with
    | nil => exact hr.malformed _ _
    | cons harg hoptions =>
      refine hr.bind (hr.stringValue harg) fun pattern => ?_
      obtain _ | ⟨hunion, _ | ⟨hsecond, hrest⟩⟩ := hoptions
      · exact hr.bind (hr.pure _) fun _ => hr.pure _
      · refine hr.bind (hr.congruence.mapM (hr.trees.flagOperands hunion) hr.typeOf) fun types => ?_
        exact hr.bind (hr.ofCause _) fun _ => hr.bind (hr.ofCause _) fun _ => hr.pure _
      · exact hr.bind (hr.pure _) fun _ => hr.pure _

theorem objectIdCall : P _ (r.objectIdCall b c t) (r'.objectIdCall b c t') := by
  have hargs := hr.trees.callArguments h
  refine hr.bind (hr.setType h _) fun _ => ?_
  refine hr.bind (hr.congruence.map _ (hr.callArguments h c)) fun _ => ?_
  simp only [hr.construction, hr.target]
  generalize t.callArguments = ts, t'.callArguments = ts' at hargs
  cases hargs with
  | nil => exact hr.pure _
  | cons harg _ =>
    exact hr.bind (hr.stringValue harg) fun _ => hr.bind (hr.ofCause _) fun _ => hr.pure _

theorem decimal128Call : P _ (r.decimal128Call b c t) (r'.decimal128Call b c t') := by
  have hargs := hr.trees.callArguments h
  refine hr.bind (hr.setType h _) fun _ => ?_
  refine hr.bind (hr.congruence.map _ (hr.callArguments h c)) fun _ => ?_
  simp only [hr.construction, hr.target]
  generalize t.callArguments = ts, t'.callArguments = ts' at hargs
  cases hargs with
  | nil => exact hr.malformed _ _
  | cons harg _ =>
    refine hr.bind (hr.typeOf harg) fun type => ?_
    split
    · exact hr.bind (hr.stringValue harg) fun _ => hr.bind (hr.ofCause _) fun _ => hr.pure _
    · exact hr.bind (hr.numericValue harg) fun _ => hr.bind (hr.ofConversion _) fun _ =>
        hr.bind (hr.ofCause _) fun _ => hr.pure _

theorem otherCall : P _ (r.otherCall b c t) (r'.otherCall b c t') := by
  unfold Renderer.otherCall
  simp only [hr.construction, hr.target]
  split
  · exact hr.failAt rfl _ _
  · exact hr.bind (hr.typeNamed _) fun _ => hr.bind (hr.setType h _) fun _ =>
      hr.bind (hr.callArguments h c) fun _ => hr.pure _

omit c in
theorem call : P _ (r.call b t) (r'.call b t') := by
  have hsubtrees := hr.trees.subtrees h
  unfold Renderer.call
  generalize t.subtrees = ts, t'.subtrees = ts' at hsubtrees
  cases hsubtrees with
  | nil => exact hr.malformed _ _
  | cons hcallee _ =>
    refine hr.bind (hr.visit hcallee) fun text => hr.bind (hr.typeOf hcallee) fun type => ?_
    cases type.treatment? with
    | none => exact hr.otherCall h _
    | some treatment =>
      refine hr.bind (hr.log _ _) fun _ => ?_
      cases treatment with
      | number => exact hr.numberCall h _
      | regex => exact hr.regexCall h _
      | code => exact hr.codeCall h _
      | datetime => exact hr.datetimeCall h _
      | fromDatetime => exact hr.fromDatetimeCall h _
      | binary => exact hr.failAt rfl _ _
      | compile => exact hr.compileCall h _
      | objectId => exact hr.objectIdCall h _
      | decimal128 => exact hr.decimal128Call h _

/-! ## Expressions -/

theorem unsupported : P α (r.unsupported t) (r'.unsupported t') := by
  cases t with
  | leaf =>
    obtain ⟨_, _, rfl, -⟩ := hr.trees.leaf h
    exact hr.malformed _ _
  | node =>
    obtain ⟨_, _, _, rfl, -⟩ := hr.trees.node h
    exact hr.failAt rfl _ _

theorem inherit {s s' : Tree} (hs : T s s') (a : α) :
    P α (do Render.setType t (← Render.typeOf s); Pure.pure a)
      (do Render.setType t' (← Render.typeOf s'); Pure.pure a) :=
  hr.bind (hr.typeOf hs) fun _ => hr.bind (hr.setType h _) fun _ => hr.pure a

theorem collapse : P _ (r.collapse b t) (r'.collapse b t') := by
  have hchildren := hr.trees.children h
  unfold Renderer.collapse
  generalize t.children = ts, t'.children = ts' at hchildren
  cases hchildren with
  | nil => exact hr.malformed _ _
  | cons hchild _ => exact hr.bind (hr.visit hchild) fun text => hr.inherit h hchild text

theorem concatenation : P _ (r.concatenation b t) (r'.concatenation b t') := by
  have hchildren := hr.trees.children h
  unfold Renderer.concatenation
  generalize t.children = ts, t'.children = ts' at hchildren
  refine hr.bind (hr.visitAll hchildren) fun texts => ?_
  cases hchildren with
  | nil => exact hr.bind (hr.setType h _) fun _ => hr.pure _
  | @cons s _ _ _ hs _ =>
    cases s with
    | leaf =>
      obtain ⟨_, _, rfl, -⟩ := hr.trees.leaf hs
      exact hr.bind (hr.setType h _) fun _ => hr.pure _
    | node =>
      obtain ⟨_, _, _, rfl, -⟩ := hr.trees.node hs
      exact hr.inherit h hs _

theorem simpleLiteral (type : ValueType) : P _ (r.simpleLiteral t type) (r'.simpleLiteral t' type) := by
  have hfirst := hr.trees.firstToken? h
  refine hr.bind (hr.setType h _) fun _ => hr.bind (hr.use _) fun _ => ?_
  generalize t.firstToken? = a, t'.firstToken? = a' at hfirst
  cases hfirst with
  | none => exact hr.malformed _ _
  | some htext =>
    dsimp only
    rw [htext]
    exact hr.literal type _

theorem stringLiteral : P _ (r.stringLiteral t) (r'.stringLiteral t') := by
  unfold Renderer.stringLiteral
  rw [hr.trees.flatMap_tokens h fun text => StringToken.body text.toList, hr.target]
  exact hr.bind (hr.setType h _) fun _ => hr.bind (hr.use _) fun _ => hr.pure _

theorem sequence (hts : Forall₂ T ts ts') :
    P _ (r.sequence b t ts) (r'.sequence b t' ts') := by
  unfold Renderer.sequence
  rw [hr.target]
  exact hr.bind (hr.setType h _) fun _ => hr.bind (hr.use _) fun _ =>
    hr.bind (hr.visitAll hts) fun _ => hr.pure _

theorem elements {f f' : List Tree → Render β}
    (hf : ∀ {ts ts' : List Tree}, Forall₂ T ts ts' → P _ (f ts) (f' ts')) :
    P _ (r.elements t >>= f) (r'.elements t' >>= f') := by
  have hchildren := hr.trees.children h
  unfold Renderer.elements
  generalize t.children = ts, t'.children = ts' at hchildren
  cases hchildren with
  | nil => exact hf .nil
  | cons hlisting _ =>
    have hsubtrees := hr.trees.subtrees hlisting
    simp only [hr.trees.any_isOf hsubtrees]
    split
    · exact hr.failAt rfl t t'
    · exact hf hsubtrees

theorem plainDocument {entries entries' : List Tree} (hentries : Forall₂ T entries entries') :
    P _ (r.plainDocument t entries) (r'.plainDocument t' entries') := by
  unfold Renderer.plainDocument
  rw [hr.target]
  refine hr.bind (hr.setType h _) fun _ => hr.bind (hr.use _) fun _ =>
    hr.bind (hr.congruence.mapM hentries fun hentry => ?_) fun _ => hr.pure _
  have hchildren := hr.trees.children hentry
  revert hchildren
  generalize Tree.children _ = ts, Tree.children _ = ts'
  intro hchildren
  obtain _ | ⟨hkey, _ | ⟨hvalue, _⟩⟩ := hchildren
  · exact hr.malformed _ _
  · exact hr.malformed _ _
  · exact hr.bind (hr.plain hkey) fun _ => hr.bind (hr.plain hvalue) fun _ => hr.pure _

theorem objectLiteral : P _ (r.objectLiteral b t) (r'.objectLiteral b t') := by
  refine hr.elements h fun hentries => ?_
  have hplain := hr.plainDocument h hentries
  have hsequence := hr.sequence h hentries
  cases hentries with
  | nil => exact hplain
  | cons hfirst _ =>
    simp only [hr.trees.isOf hfirst]
    split
    · exact hsequence
    · split
      · rename_i hb
        refine hr.bind (hr.query? hb (Shape.both_ofTree hr.trees h).entries) fun text? => ?_
        cases text? with
        | none => exact hplain
        | some text => exact hr.bind (hr.setType h _) fun _ => hr.pure _
      · exact hplain

theorem arrayLiteral : P _ (r.arrayLiteral b t) (r'.arrayLiteral b t') :=
  hr.elements h fun helements => hr.sequence h helements

theorem setLiteral : P _ (r.setLiteral b t) (r'.setLiteral b t') := by
  refine hr.elements h fun helements => ?_
  have hsequence := hr.sequence h helements
  obtain _ | ⟨helement, _ | ⟨hsecond, hrest⟩⟩ := helements
  · exact hsequence
  · exact hr.bind (hr.visit helement) fun text => hr.inherit h helement _
  · exact hsequence

theorem logical (join : List String → String) :
    P _ (r.logical b t join) (r'.logical b t' join) := by
  have hsubtrees := hr.trees.subtrees h
  unfold Renderer.logical
  generalize t.subtrees = ts, t'.subtrees = ts' at hsubtrees
  refine hr.bind (hr.visitAll hsubtrees) fun texts => ?_
  cases hsubtrees with
  | nil => exact hr.malformed _ _
  | cons hfirst _ => exact hr.inherit h hfirst _

theorem negation : P _ (r.negation b t) (r'.negation b t') := by
  have hsubtrees := hr.trees.subtrees h
  unfold Renderer.negation
  rw [hr.target]
  generalize t.subtrees = ts, t'.subtrees = ts' at hsubtrees
  cases hsubtrees with
  | nil => exact hr.malformed _ _
  | cons hoperand _ =>
    exact hr.bind (hr.visit hoperand) fun _ => hr.bind (hr.setType h _) fun _ => hr.pure _

omit hr h in
theorem rel_everySecond {R : α → β → Prop} : {l : List α} → {l' : List β} → Forall₂ R l l' →
    Forall₂ R (everySecond l) (everySecond l')
  | _, _, .nil => .nil
  | _, _, .cons h .nil => .cons h .nil
  | _, _, .cons h (.cons _ hrest) => .cons h (rel_everySecond hrest)

theorem comparison : P _ (r.comparison b t) (r'.comparison b t') := by
  have hchildren := hr.trees.children h
  have hoperators := hr.trees.map_texts (rel_everySecond (forall₂_tail hchildren))
  unfold Renderer.comparison
  rw [hoperators, hr.target]
  refine hr.bind (hr.visitAll (rel_everySecond hchildren)) fun operands => ?_
  refine hr.bind (hr.setType h _) fun _ => ?_
  split
  · exact hr.pure _
  · exact hr.pure _

omit h in
theorem operations (text : String) : (ts : List Tree) → {ts' : List Tree} → Forall₂ T ts ts' →
    P _ (r.operations b text ts) (r'.operations b text ts')
  | [], _, .nil => hr.pure _
  | [.leaf _ _], _, .cons h .nil => by
    obtain ⟨_, _, rfl, -⟩ := hr.trees.leaf h
    exact hr.pure _
  | .leaf _ _ :: _ :: rest, _, .cons h (.cons hoperand hrest) => by
    obtain ⟨_, _, rfl, htext⟩ := hr.trees.leaf h
    rw [Renderer.operations, Renderer.operations, hr.target, htext]
    exact hr.bind (hr.visit hoperand) fun second => operations _ rest hrest
  | .node _ _ _ _ :: _, _, .cons h _ => by
    obtain ⟨_, _, _, rfl, -⟩ := hr.trees.node h
    exact hr.pure _

theorem operation : P _ (r.operation b t) (r'.operation b t') := by
  have hchildren := hr.trees.children h
  unfold Renderer.operation
  generalize t.children = ts, t'.children = ts' at hchildren
  cases hchildren with
  | nil => exact hr.malformed _ _
  | cons hfirst hrest =>
    exact hr.bind (hr.visit hfirst) fun text => hr.bind (hr.operations text _ hrest) fun text =>
      hr.inherit h hfirst _

theorem sign : P _ (r.sign b t) (r'.sign b t') := by
  have hchildren := hr.trees.children h
  unfold Renderer.sign
  generalize t.children = ts, t'.children = ts' at hchildren
  match ts, ts', hchildren with
  | [], _, .nil => exact hr.malformed _ _
  | [.leaf _ _], _, .cons hs .nil =>
    obtain ⟨_, _, rfl, -⟩ := hr.trees.leaf hs
    exact hr.malformed _ _
  | [.leaf _ _, _], _, .cons hs (.cons hoperand .nil) =>
    obtain ⟨_, _, rfl, htext⟩ := hr.trees.leaf hs
    dsimp only
    rw [htext]
    exact hr.bind (hr.visit hoperand) fun text => hr.inherit h hoperand _
  | .leaf _ _ :: _ :: _ :: _, _, .cons hs (.cons _ (.cons _ _)) =>
    obtain ⟨_, _, rfl, -⟩ := hr.trees.leaf hs
    exact hr.malformed _ _
  | .node _ _ _ _ :: _, _, .cons hs _ =>
    obtain ⟨_, _, _, rfl, -⟩ := hr.trees.node hs
    exact hr.malformed _ _

theorem power : P _ (r.power b t) (r'.power b t') := by
  have hsubtrees := hr.trees.subtrees h
  unfold Renderer.power
  rw [hr.target]
  generalize t.subtrees = ts, t'.subtrees = ts' at hsubtrees
  obtain _ | ⟨hbase, _ | ⟨hexponent, _ | ⟨_, _⟩⟩⟩ := hsubtrees
  · exact hr.malformed _ _
  · exact hr.malformed _ _
  · exact hr.bind (hr.visit hbase) fun _ => hr.bind (hr.visit hexponent) fun _ =>
      hr.inherit h hbase _
  · exact hr.malformed _ _

theorem identifier : P _ (r.identifier t) (r'.identifier t') := by
  have hfirst := hr.trees.firstToken? h
  unfold Renderer.identifier
  rw [hr.target]
  generalize t.firstToken? = a, t'.firstToken? = a' at hfirst
  cases hfirst with
  | none => exact hr.malformed _ _
  | some htext =>
    dsimp only
    rw [htext]
    split
    · exact hr.bind (hr.setType h _) fun _ => hr.bind (hr.use _) fun _ => hr.pure _
    · exact hr.fail rfl

theorem memberAccess : P _ (r.memberAccess b t) (r'.memberAccess b t') := by
  have hchildren := hr.trees.children h
  unfold Renderer.memberAccess
  rw [hr.target]
  generalize t.children = ts, t'.children = ts' at hchildren
  match ts, ts', hchildren with
  | [], _, .nil => exact hr.malformed _ _
  | [_], _, .cons _ .nil => exact hr.malformed _ _
  | [_, .leaf _ name], _, .cons howner (.cons hname .nil) =>
    obtain ⟨_, _, rfl, htext⟩ := hr.trees.leaf hname
    refine hr.bind (hr.visit howner) fun text => hr.bind (hr.typeOf howner) fun type => ?_
    rw [htext]
    split
    · exact hr.bind (hr.setType h _) fun _ => hr.pure _
    · split
      · exact hr.failAt rfl _ _
      · exact hr.bind (hr.setType h _) fun _ => hr.pure _
  | _ :: .leaf _ _ :: _ :: _, _, .cons _ (.cons hname (.cons _ _)) =>
    obtain ⟨_, _, rfl, -⟩ := hr.trees.leaf hname
    exact hr.malformed _ _
  | _ :: .node _ _ _ _ :: _, _, .cons _ (.cons hname _) =>
    obtain ⟨_, _, _, rfl, -⟩ := hr.trees.node hname
    exact hr.malformed _ _

/-! ## Nodes -/

theorem program : P _ (r.program b t) (r'.program b t') := by
  unfold Renderer.program
  rw [hr.target]
  exact hr.bind (hr.visitAll (hr.trees.subtrees h)) fun _ => hr.bind (hr.setType h _) fun _ =>
    hr.pure _

theorem statements : P _ (r.statements b t) (r'.statements b t') := by
  have hchildren := hr.trees.children h
  unfold Renderer.statements
  rw [hr.target]
  refine hr.bind (hr.congruence.mapM (hr.trees.subtrees h) fun hs =>
    hr.bind (hr.visit hs) fun _ => hr.pure _) fun texts => ?_
  generalize t.children = ts, t'.children = ts' at hchildren
  cases hchildren with
  | nil => exact hr.malformed _ _
  | cons hfirst _ => exact hr.inherit h hfirst _

theorem onlyChild : P _ (r.onlyChild b t) (r'.onlyChild b t') := by
  have hchildren := hr.trees.children h
  unfold Renderer.onlyChild
  generalize t.children = ts, t'.children = ts' at hchildren
  obtain _ | ⟨_, _ | ⟨hsecond, _⟩⟩ := hchildren
  · exact hr.collapse h
  · exact hr.collapse h
  · exact hr.unsupported hsecond

/-- Nodes that pass through or are written in related ways otherwise. -/
theorem unlessPassThrough {other other' : Render String} (hother : P _ other other') :
    P _ (r.unlessPassThrough b t other) (r'.unlessPassThrough b t' other') := by
  unfold Renderer.unlessPassThrough
  rw [hr.trees.isPassThrough h]
  split
  · exact hr.collapse h
  · exact hother

theorem ofRule (rule : Rule) : P _ (r.ofRule b t rule) (r'.ofRule b t' rule) := by
  have hoperation := hr.unlessPassThrough h (hr.operation h)
  unfold Renderer.ofRule
  rw [hr.target]
  split
  · exact hr.program h
  · exact hr.statements h
  · exact hr.onlyChild h
  · exact hr.onlyChild h
  · exact hr.unlessPassThrough h (hr.sequence h (hr.trees.subtrees h))
  · exact hr.stringLiteral h
  · exact hr.objectLiteral h
  · exact hr.arrayLiteral h
  · exact hr.setLiteral h
  · exact hr.unlessPassThrough h (hr.logical h _)
  · exact hr.unlessPassThrough h (hr.logical h _)
  · exact hr.unlessPassThrough h (hr.negation h)
  · exact hr.unlessPassThrough h (hr.comparison h)
  iterate 6 · exact hoperation
  · exact hr.unlessPassThrough h (hr.sign h)
  · exact hr.unlessPassThrough h (hr.power h)
  · exact hr.call h
  · exact hr.memberAccess h
  · exact hr.failAt rfl _ _
  · exact hr.identifier h
  iterate 8 · exact hr.simpleLiteral h _
  iterate 27 · exact hr.unsupported h
  exact hr.unlessPassThrough h (hr.concatenation h)

theorem step : P _ (r.step b t) (r'.step b t') := by
  cases t with
  | leaf =>
    obtain ⟨_, _, rfl, htext⟩ := hr.trees.leaf h
    simp only [Renderer.step, htext]
    exact hr.pure _
  | node i rule =>
    have hrule := hr.ofRule h rule
    obtain ⟨_, _, _, rfl, -⟩ := hr.trees.node h
    exact hrule

end Related

end Renderer

end QueryScribe
