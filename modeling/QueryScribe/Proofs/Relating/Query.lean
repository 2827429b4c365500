import QueryScribe.Proofs.Filter.Equations
import QueryScribe.Proofs.Relating.Building

/-!
# Queries side by side

Filters, stages and whole queries that are built of shapes whose nodes correspond are related as the
steps of building are (`Builder.Related.query`).
-/

namespace QueryScribe.Builder

open List

/-- What operators of documents that correspond may ask of each other. -/
structure Siblings.Both (T : Tree → Tree → Prop) (siblings siblings' : Siblings) : Prop where
  options : Option.Rel T siblings.options siblings'.options
  hasRegex : siblings'.hasRegex = siblings.hasRegex

theorem Siblings.both_of {operators operators' : List (String × Shape)}
    (h : Forall₂ (Prod.RProd Eq (Shape.Both T)) operators operators') :
    Siblings.Both T (.of operators) (.of operators') where
  options := by
    have hlookup := rel_lookup (rel_reverse h) "$options"
    unfold Siblings.of
    dsimp only
    generalize operators.reverse.lookup "$options" = a, operators'.reverse.lookup "$options" = a'
      at hlookup
    cases hlookup with
    | none => exact .none
    | some h => exact .some h.tree
  hasRegex := by
    unfold Siblings.of
    dsimp only
    induction h with
    | nil => rfl
    | cons ho _ ih =>
      obtain ⟨rfl, -⟩ := ho
      rw [any_cons, any_cons, ih]

namespace Related

variable {b b' : Builder} {T : Tree → Tree → Prop} {P : (α : Type) → Build α → Build α → Prop}
  (hb : b.Related b' T P) {t t' : Tree} {s s' : Shape}

include hb

/-! ## Filters -/

theorem conjunction (clauses : List Call) : P _ (b.conjunction clauses) (b'.conjunction clauses) := by
  unfold Builder.conjunction
  split
  · exact hb.pure _
  · exact hb.call _ _ _

theorem textSearch (h : Shape.Both T s s') : P _ (b.textSearch s) (b'.textSearch s') :=
  hb.members h.entries fun hms => hb.member hms _ fun hvalue => hb.plain hvalue.tree

theorem near (op : String) (field : Call) (h : Shape.Both T s s') :
    P _ (b.near op field s) (b'.near op field s') := by
  refine hb.members h.entries fun {ms ms'} hms => hb.member hms _ fun hgeometry => ?_
  refine hb.bind (hb.geometry _ hgeometry) fun ⟨kind, point⟩ => ite (hb.refuse _ _) ?_
  have hnames : Forall₂ Eq nearOptions nearOptions := forall₂_same.2 fun _ _ => rfl
  refine hb.bind (hb.congruence.mapM hnames fun {name name'} hname => ?_) fun _ => hb.call _ _ _
  subst hname
  have hlookup := rel_lookup hms name
  generalize ms.lookup name = a, ms'.lookup name = a' at hlookup
  cases hlookup with
  | none => exact hb.pure _
  | some hdistance => exact hb.numeric (.inr rfl) hdistance.tree

theorem planeShape (field : Call) (shape : String) (h : Shape.Both T s s') :
    P _ (b.planeShape field shape s) (b'.planeShape field shape s') := by
  refine ite ?_ (ite ?_ (ite ?_ (hb.refuse _ _)))
  · refine hb.twoItems h fun hlower hupper => ?_
    exact hb.bind (hb.coordinates hlower) fun _ => hb.bind (hb.coordinates hupper) fun _ =>
      hb.call _ _ _
  · refine hb.eachItem h (fun h => hb.bind (hb.coordinates h) fun _ => hb.list _) fun _ => ?_
    exact hb.bind (hb.list _) fun _ => hb.call _ _ _
  · refine hb.twoItems h fun hcenter hradius => ?_
    exact hb.bind (hb.coordinates hcenter) fun _ =>
      hb.bind (hb.numeric (.inr rfl) hradius.tree) fun _ => hb.call _ _ _

theorem geoClause (op : String) (field : Call) (h : Shape.Both T s s') :
    P _ (b.geoClause op field s) (b'.geoClause op field s') := by
  have hoperators := h.operators? hb.texts.key
  unfold Builder.geoClause
  generalize s.operators? = a, s'.operators? = a' at hoperators
  obtain @⟨_, _, _ | ⟨⟨rfl, hvalue⟩, _ | ⟨_, _⟩⟩⟩ | _ := hoperators
  · exact hb.refuse _ _
  · refine ite (hb.bind (hb.geometry _ hvalue) fun _ => hb.call _ _ _) ?_
    exact ite (hb.refuse _ _) (hb.planeShape field _ hvalue)
  · exact hb.refuse _ _
  · exact hb.refuse _ _

theorem regexClause (field : Call) {options options' : Option Tree}
    (hoptions : Option.Rel T options options') (h : Shape.Both T s s') :
    P _ (b.regexClause field options s) (b'.regexClause field options' s') := by
  refine hb.bind (hb.plain h.tree) fun pattern => ?_
  cases hoptions with
  | none => exact hb.call _ _ _
  | some ht => exact hb.bind (hb.plain ht) fun _ => hb.call _ _ _

theorem modClause (field : Call) (h : Shape.Both T s s') :
    P _ (b.modClause field s) (b'.modClause field s') :=
  hb.twoItems h fun hdivisor hremainder => hb.bind (hb.plain hdivisor.tree) fun _ =>
    hb.bind (hb.plain hremainder.tree) fun _ => hb.call _ _ _

theorem plainClause (field : Call) {siblings siblings' : Siblings}
    (hsiblings : Siblings.Both T siblings siblings') (op : String) (h : Shape.Both T s s') :
    P _ (b.plainClause field siblings op s) (b'.plainClause field siblings' op s') := by
  unfold Builder.plainClause
  refine ite (hb.bind (hb.plain h.tree) fun _ => hb.call _ _ _) ?_
  refine ite (hb.regexClause field hsiblings.options h) (ite (hb.modClause field h) ?_)
  exact ite (hb.geoClause op field h) (ite (hb.near op field h) (hb.refuse _ _))

theorem oneClause {x x' : Build Call} (hx : P _ x x') (key : String) (args : Call → List Call) :
    P _ (x >>= fun c => b.call .filters key (args c) >>= fun clause => Pure.pure [clause])
      (x' >>= fun c => b'.call .filters key (args c) >>= fun clause => Pure.pure [clause]) :=
  hb.bind hx fun _ => hb.bind (hb.call _ _ _) fun _ => hb.pure _

theorem entryClauses_of (hkey : T t t') (h : Shape.Both T s s')
    (hlogical : ∀ key, P _ (b.logicalClauses key s) (b'.logicalClauses key s'))
    (hfield : ∀ field, P _ (b.fieldClauses field s) (b'.fieldClauses field s')) :
    P _ (b.entryClauses t s) (b'.entryClauses t' s') := by
  rw [entryClauses_eq, entryClauses_eq]
  refine hb.bind (hb.key hkey) fun key => ite (hlogical key) (ite ?_ (ite ?_ (ite ?_ ?_)))
  · exact hb.oneClause (hb.plain h.tree) _ _
  · exact hb.oneClause (hb.textSearch h) _ _
  · exact hb.refuse _ _
  · exact hb.bind (hb.field hkey) hfield

theorem operatorClause_of (field : Call) {siblings siblings' : Siblings}
    (hsiblings : Siblings.Both T siblings siblings') (op : String) (h : Shape.Both T s s')
    (hnot : P _ (b.notClause field s) (b'.notClause field s'))
    (helement : P _ (b.elementClause field s) (b'.elementClause field s')) :
    P _ (b.operatorClause field siblings op s) (b'.operatorClause field siblings' op s') := by
  rw [operatorClause_eq, operatorClause_eq]
  exact ite hnot (ite helement (hb.plainClause field hsiblings op h))

end Related

variable {b b' : Builder} {T : Tree → Tree → Prop} {P : (α : Type) → Build α → Build α → Prop}

mutual

theorem Related.filter (hb : b.Related b' T P) : (s : Shape) → {s' : Shape} → Shape.Both T s s' →
    P _ (b.filter s) (b'.filter s')
  | .document _ entries, _, .document _ hentries =>
    hb.bind (hb.clauses entries hentries) hb.conjunction
  | .array _ _, _, .array _ _ => hb.refuse _ _
  | .scalar _, _, .scalar _ => hb.refuse _ _
termination_by structural s => s

theorem Related.clauses (hb : b.Related b' T P) : (es : List (Tree × Shape)) →
    {es' : List (Tree × Shape)} → Forall₂ (Prod.RProd T (Shape.Both T)) es es' →
    P _ (b.clauses es) (b'.clauses es')
  | [], _, .nil => hb.pure _
  | (_, value) :: rest, _, .cons ⟨hkey, hvalue⟩ hrest =>
    hb.bind (hb.entryClauses hkey value hvalue) fun _ =>
      hb.bind (hb.clauses rest hrest) fun _ => hb.pure _
termination_by structural es => es

theorem Related.entryClauses (hb : b.Related b' T P) {t t' : Tree} (hkey : T t t') : (s : Shape) →
    {s' : Shape} → Shape.Both T s s' → P _ (b.entryClauses t s) (b'.entryClauses t' s')
  | .document tree entries, .document tree' entries', .document ht hentries => by
    have hoperators := Shape.rel_operatorsOf? hb.texts.key hentries
    refine hb.entryClauses_of hkey (.document ht hentries) (fun _ => hb.refuse _ _) fun field => ?_
    dsimp only [fieldClauses]
    generalize Shape.operatorsOf? entries = a, Shape.operatorsOf? entries' = a' at hoperators
    cases hoperators with
    | none => exact hb.oneClause (hb.plain ht) _ _
    | some h => exact hb.operatorClauses field (Siblings.both_of h) entries hentries
  | .array _ [], _, .array ht .nil =>
    hb.entryClauses_of hkey (.array ht .nil) (fun _ => hb.refuse _ _) fun _ =>
      hb.oneClause (hb.plain ht) _ _
  | .array _ (first :: rest), _, .array ht (.cons hfirst hrest) =>
    hb.entryClauses_of hkey (.array ht (.cons hfirst hrest))
      (fun _ => hb.bind (hb.filter first hfirst) fun _ => hb.bind (hb.filters rest hrest) fun _ =>
        hb.bind (hb.call _ _ _) fun _ => hb.pure _)
      fun _ => hb.oneClause (hb.plain ht) _ _
  | .scalar _, _, .scalar ht =>
    hb.entryClauses_of hkey (.scalar ht) (fun _ => hb.refuse _ _) fun _ =>
      hb.oneClause (hb.plain ht) _ _
termination_by structural s => s

theorem Related.filters (hb : b.Related b' T P) : (l : List Shape) → {l' : List Shape} →
    Forall₂ (Shape.Both T) l l' → P _ (b.filters l) (b'.filters l')
  | [], _, .nil => hb.pure _
  | first :: rest, _, .cons hfirst hrest =>
    hb.bind (hb.filter first hfirst) fun _ => hb.bind (hb.filters rest hrest) fun _ => hb.pure _
termination_by structural l => l

theorem Related.operatorClauses (hb : b.Related b' T P) (field : Call) {siblings siblings' : Siblings}
    (hsiblings : Siblings.Both T siblings siblings') : (es : List (Tree × Shape)) →
    {es' : List (Tree × Shape)} → Forall₂ (Prod.RProd T (Shape.Both T)) es es' →
    P _ (b.operatorClauses field siblings es) (b'.operatorClauses field siblings' es')
  | [], _, .nil => hb.pure _
  | (_, operand) :: rest, _, .cons ⟨hkey, hoperand⟩ hrest => by
    have hmore := hb.operatorClauses field hsiblings rest hrest
    rw [operatorClauses_cons, operatorClauses_cons, hsiblings.hasRegex]
    refine hb.bind (hb.key hkey) fun op => ite (ite hmore (hb.refuse _ _)) ?_
    exact hb.bind (hb.operatorClause field hsiblings op operand hoperand) fun _ =>
      hb.bind hmore fun _ => hb.pure _
termination_by structural es => es

theorem Related.operatorClause (hb : b.Related b' T P) (field : Call) {siblings siblings' : Siblings}
    (hsiblings : Siblings.Both T siblings siblings') (op : String) : (s : Shape) → {s' : Shape} →
    Shape.Both T s s' → P _ (b.operatorClause field siblings op s) (b'.operatorClause field siblings' op s')
  | .document tree entries, .document tree' entries', .document ht hentries => by
    have hoperators := Shape.rel_operatorsOf? hb.texts.key hentries
    have hclauses := hb.clauses entries hentries
    refine hb.operatorClause_of field hsiblings op (.document ht hentries) ?_ ?_
    · dsimp only [notClause]
      generalize Shape.operatorsOf? entries = a, Shape.operatorsOf? entries' = a' at hoperators
      cases hoperators with
      | none => exact hb.refuse _ _
      | some h =>
        exact hb.bind (hb.operatorClauses field (Siblings.both_of h) entries hentries) fun _ =>
          hb.bind (hb.conjunction _) fun _ => hb.call _ _ _
    · exact hb.bind hclauses fun _ => hb.bind (hb.conjunction _) fun _ => hb.call _ _ _
  | .array _ _, _, .array ht hitems =>
    hb.operatorClause_of field hsiblings op (.array ht hitems) (hb.refuse _ _) (hb.refuse _ _)
  | .scalar _, _, .scalar ht =>
    hb.operatorClause_of field hsiblings op (.scalar ht) (hb.refuse _ _) (hb.refuse _ _)
termination_by structural s => s

end

namespace Related

variable (hb : b.Related b' T P) {t t' : Tree} {s s' : Shape}

include hb

/-! ## Stages -/

theorem accumulator? (h : Shape.Both T s s') :
    Option.Rel (Prod.RProd Eq (Shape.Both T)) (b.accumulator? s) (b'.accumulator? s') := by
  have hoperators := h.operators? hb.texts.key
  unfold Builder.accumulator?
  rw [hb.helpers]
  generalize s.operators? = a, s'.operators? = a' at hoperators
  obtain @⟨_, _, _ | ⟨⟨rfl, hvalue⟩, _ | ⟨_, _⟩⟩⟩ | _ := hoperators
  · exact .none
  · dsimp only
    split
    · exact .some ⟨rfl, hvalue⟩
    · exact .none
  · exact .none
  · exact .none

theorem accumulation (hkey : T t t') (op : String) (h : Shape.Both T s s') :
    P _ (b.accumulation t op s) (b'.accumulation t' op s') :=
  hb.bind (hb.field hkey) fun _ => hb.bind (hb.plain h.tree) fun _ => hb.call _ _ _

theorem graphOption (name : String) (h : Shape.Both T s s') :
    P _ (b.graphOption name s) (b'.graphOption name s') := by
  refine ite (hb.bind (hb.numeric (.inl rfl) h.tree) fun _ => hb.pure _) ?_
  refine ite (hb.bind (hb.string h.tree) fun _ => hb.pure _) ?_
  exact ite (hb.bind (hb.filter s h) fun _ => hb.pure _) (hb.pure _)

theorem graphLookup (h : Shape.Both T s s') : P _ (b.graphLookup s) (b'.graphLookup s') := by
  refine hb.members h.entries fun hms => ?_
  refine hb.member hms _ fun hfrom => hb.bind (hb.string hfrom.tree) fun origin => ?_
  refine hb.member hms _ fun hstart => hb.bind (hb.plain hstart.tree) fun start => ?_
  refine hb.member hms _ fun hfrom => hb.bind (hb.string hfrom.tree) fun connectFrom => ?_
  refine hb.member hms _ fun hto => hb.bind (hb.string hto.tree) fun connectTo => ?_
  refine hb.member hms _ fun houtput => hb.bind (hb.string houtput.tree) fun output => ?_
  refine hb.bind (hb.congruence.mapM hms fun hm => ?_) fun options => ?_
  · obtain ⟨rfl, hvalue⟩ := hm
    exact hb.graphOption _ hvalue
  · split
    · exact hb.pure _
    · exact hb.bind (hb.call _ _ _) fun _ => hb.pure _

theorem group (h : Shape.Both T s s') : P _ (b.group s) (b'.group s') := by
  have hentries := h.entries
  refine hb.entries h ?_
  generalize s.entries = es, s'.entries = es' at hentries
  obtain _ | ⟨⟨hkey, hid⟩, hrest⟩ := hentries
  · exact hb.refuse _ _
  · dsimp only
    rw [hb.texts.key hkey]
    refine ite (hb.refuse _ _) (hb.bind (hb.plain hid.tree) fun _ => ?_)
    refine hb.bind (hb.congruence.mapM hrest fun {e e'} he => ?_) fun _ => hb.pure _
    obtain @⟨key, value, key', value', hkey, hvalue⟩ := he
    have haccumulator := hb.accumulator? hvalue
    dsimp only
    generalize b.accumulator? value = a, b'.accumulator? value' = a' at haccumulator
    cases haccumulator with
    | none => exact hb.refuse _ _
    | some ho =>
      obtain ⟨rfl, hoperand⟩ := ho
      exact hb.accumulation hkey _ hoperand

theorem projectField (p : Projection) (hkey : T t t') (h : Shape.Both T s s') :
    P _ (b.projectField p t s) (b'.projectField p t' s') := by
  refine hb.bind (hb.truth h.tree) fun keep => hb.bind (hb.key hkey) fun key => ?_
  refine ite (hb.pure _) (hb.bind (hb.field hkey) fun field => ?_)
  exact ite (hb.pure _) (hb.pure _)

theorem fieldsCall (name : String) (fields : List Call) :
    P _ (b.fieldsCall name fields) (b'.fieldsCall name fields) := by
  unfold Builder.fieldsCall
  split
  · exact hb.pure _
  · exact hb.bind (hb.call _ _ _) fun _ => hb.pure _

theorem projection (h : Shape.Both T s s') : P _ (b.projection s) (b'.projection s') := by
  refine hb.entries h (hb.bind (hb.congruence.foldlM h.entries (fun p {e e'} he => ?_) _) fun p => ?_)
  · obtain ⟨hkey, hvalue⟩ := he
    exact hb.projectField p hkey hvalue
  refine hb.bind (hb.fieldsCall _ _) fun included => hb.bind (hb.fieldsCall _ _) fun excluded => ?_
  refine ite (hb.bind (hb.call _ _ _) fun _ => hb.bind (hb.pure _) fun _ => ?_)
    (hb.bind (hb.pure _) fun _ => ?_)
  all_goals
    dsimp only
    split
    · exact hb.pure _
    · exact hb.call _ _ _

theorem direction (h : Shape.Both T s s') : P _ (b.direction s) (b'.direction s') := by
  have hoperators := h.operators? hb.texts.key
  unfold Builder.direction
  generalize s.operators? = a, s'.operators? = a' at hoperators
  obtain @⟨_, _, _ | ⟨⟨rfl, hvalue⟩, _ | ⟨_, _⟩⟩⟩ | _ := hoperators
  · exact hb.refuse _ _
  · dsimp only
    rw [hb.texts.key hvalue.tree]
    exact ite (hb.pure _) (hb.refuse _ _)
  · exact hb.refuse _ _
  · exact hb.bind (hb.number h.tree) fun value =>
      ite (hb.pure _) (ite (hb.pure _) (hb.bind (hb.shown value) fun _ => hb.refuse _ _))

theorem sort (h : Shape.Both T s s') : P _ (b.sort s) (b'.sort s') := by
  refine hb.entries h (hb.bind (hb.congruence.mapM h.entries fun he => ?_) fun orders => ?_)
  · obtain ⟨hkey, hvalue⟩ := he
    exact hb.bind (hb.field hkey) fun _ => hb.bind (hb.direction hvalue) fun _ => hb.call _ _ _
  · split
    · exact hb.pure _
    · exact hb.call _ _ _

theorem simpleStage (stage : String) (h : Shape.Both T s s') :
    P _ (b.simpleStage stage s) (b'.simpleStage stage s') := by
  unfold Builder.simpleStage
  refine ite (hb.bind (hb.string h.tree) fun _ => hb.pure _) ?_
  refine ite (hb.bind (hb.filter s h) fun _ => hb.pure _) ?_
  refine ite (hb.bind (hb.numeric (.inl rfl) h.tree) fun _ => hb.pure _) (ite ?_ (ite ?_ ?_))
  · exact hb.members h.entries fun hms => hb.member hms _ fun hsize =>
      hb.bind (hb.numeric (.inl rfl) hsize.tree) fun _ => hb.pure _
  · have hnames : Forall₂ Eq lookupFields lookupFields := forall₂_same.2 fun _ _ => rfl
    exact hb.members h.entries fun hms => hb.congruence.mapM hnames fun hname =>
      hname ▸ hb.member hms _ fun hvalue => hb.string hvalue.tree
  refine ite (hb.graphLookup h) (ite (hb.group h) ?_)
  refine ite (hb.bind (hb.projection h) fun _ => hb.pure _) ?_
  refine ite (hb.bind (hb.sort h) fun _ => hb.pure _) (ite ?_ (hb.refuse _ _))
  exact hb.members h.entries fun hms => hb.member hms _ fun hroot =>
    hb.bind (hb.plain hroot.tree) fun _ => hb.pure _

theorem isStage (key : String) : b'.isStage key = b.isStage key := by
  unfold Builder.isStage
  rw [hb.helpers]

end Related

mutual

theorem Related.stage (hb : b.Related b' T P) (name : String) : (s : Shape) → {s' : Shape} →
    Shape.Both T s s' → P _ (b.stage name s) (b'.stage name s')
  | .document _ entries, _, .document ht hentries =>
    ite (hb.bind (hb.facets entries hentries) fun _ => hb.call _ _ _)
      (hb.bind (hb.simpleStage name (.document ht hentries)) fun _ => hb.call _ _ _)
  | .array _ _, _, .array ht hitems =>
    ite (hb.refuse _ _) (hb.bind (hb.simpleStage name (.array ht hitems)) fun _ => hb.call _ _ _)
  | .scalar _, _, .scalar ht =>
    ite (hb.refuse _ _) (hb.bind (hb.simpleStage name (.scalar ht)) fun _ => hb.call _ _ _)
termination_by structural s => s

theorem Related.facets (hb : b.Related b' T P) : (es : List (Tree × Shape)) →
    {es' : List (Tree × Shape)} → Forall₂ (Prod.RProd T (Shape.Both T)) es es' →
    P _ (b.facets es) (b'.facets es')
  | [], _, .nil => hb.pure _
  | (_, pipeline) :: rest, _, .cons ⟨hkey, hvalue⟩ hrest =>
    hb.bind (hb.facet hkey pipeline hvalue) fun _ => hb.bind (hb.facets rest hrest) fun _ => hb.pure _
termination_by structural es => es

theorem Related.facet (hb : b.Related b' T P) {t t' : Tree} (hkey : T t t') : (s : Shape) →
    {s' : Shape} → Shape.Both T s s' → P _ (b.facet t s) (b'.facet t' s')
  | .array _ items, _, .array _ hitems =>
    hb.bind (hb.pipeline items hitems) fun _ => hb.bind (hb.field hkey) fun _ =>
      hb.bind (hb.list _) fun _ => hb.call _ _ _
  | .document _ _, _, .document _ _ => hb.refuse _ _
  | .scalar _, _, .scalar _ => hb.refuse _ _
termination_by structural s => s

theorem Related.pipeline (hb : b.Related b' T P) : (l : List Shape) → {l' : List Shape} →
    Forall₂ (Shape.Both T) l l' → P _ (b.pipeline l) (b'.pipeline l')
  | [], _, .nil => hb.pure _
  | first :: rest, _, .cons hfirst hrest =>
    hb.bind (hb.stageDocument first hfirst) fun _ => hb.bind (hb.pipeline rest hrest) fun _ =>
      hb.pure _
termination_by structural l => l

theorem Related.stageDocument (hb : b.Related b' T P) : (s : Shape) → {s' : Shape} →
    Shape.Both T s s' → P _ (b.stageDocument s) (b'.stageDocument s')
  | .document _ [(keyTree, operand)], .document _ [(keyTree', operand')],
      .document _ (.cons ⟨hkey, hoperand⟩ .nil) => by
    change P _
      (match keyTree.stringKey? with
        | some key => if b.isStage key then b.stage key operand else Builder.refuse .pipelineStage
        | none => Builder.refuse .pipelineStage)
      (match keyTree'.stringKey? with
        | some key => if b'.isStage key then b'.stage key operand' else Builder.refuse .pipelineStage
        | none => Builder.refuse .pipelineStage)
    rw [hb.texts.key hkey]
    cases keyTree.stringKey? with
    | none => exact hb.refuse _ _
    | some key =>
      dsimp only
      rw [hb.isStage]
      exact ite (hb.stage key operand hoperand) (hb.refuse _ _)
  | .document _ [], _, .document _ .nil => hb.refuse _ _
  | .document _ (_ :: _ :: _), _, .document _ (.cons _ (.cons _ _)) => hb.refuse _ _
  | .array _ _, _, .array _ _ => hb.refuse _ _
  | .scalar _, _, .scalar _ => hb.refuse _ _
termination_by structural s => s

end

theorem Related.query (hb : b.Related b' T P) {es es' : List (Tree × Shape)}
    (h : Forall₂ (Prod.RProd T (Shape.Both T)) es es') : P _ (b.query es) (b'.query es') := by
  have hfilter : P _ (b.clauses es >>= b.conjunction) (b'.clauses es' >>= b'.conjunction) :=
    hb.bind (hb.clauses es h) hb.conjunction
  obtain _ | @⟨⟨t, s⟩, ⟨t', s'⟩, _, _, ⟨hkey, hvalue⟩, _ | ⟨_, _⟩⟩ := h
  · exact hfilter
  · unfold Builder.query singleEntry
    dsimp only
    rw [hb.texts.key hkey]
    cases t.stringKey? with
    | none => exact hfilter
    | some key =>
      have haccumulator := hb.accumulator? hvalue
      dsimp only
      rw [hb.isStage]
      refine ite (hb.stage key s hvalue) (ite (hb.bind (hb.geometry s hvalue) fun _ => hb.pure _) ?_)
      generalize b.accumulator? s = a, b'.accumulator? s' = a' at haccumulator
      cases haccumulator with
      | none => exact hfilter
      | some ho =>
        obtain ⟨rfl, hoperand⟩ := ho
        exact hb.accumulation hkey _ hoperand
  · exact hfilter

end QueryScribe.Builder
