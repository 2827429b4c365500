import QueryScribe.Proofs.Relating.Rendering

/-!
# Building two queries side by side

Whatever is built of a document comes down to a few steps: refusing, calling a helper, making a
list, and writing a node of the document plainly, as a string or as a number. A relation between
actions that sequencing keeps and that these steps have for trees which correspond
(`Builder.Related`) therefore holds between what is built of shapes whose nodes correspond. In this
module that is shown of values, members and geometries. Where an action hands on nodes or shapes, it
is shown of going on with them.
-/

namespace QueryScribe

open List

/-- Two results that correspond, or two reasons for none that do. -/
inductive Except.Alike {ε α β : Type} (E : ε → ε → Prop) (R : α → β → Prop) :
    Except ε α → Except ε β → Prop
  | ok {a : α} {b : β} : R a b → Alike E R (.ok a) (.ok b)
  | error {e e' : ε} : E e e' → Alike E R (.error e) (.error e')

/-- Trees of which a query reads the same texts. -/
structure Tree.SameTexts (T : Tree → Tree → Prop) : Prop where
  key : ∀ {t t' : Tree}, T t t' → t'.stringKey? = t.stringKey?
  isFlag : ∀ {t t' : Tree}, T t t' → t'.core.isOf .booleanLiteral = t.core.isOf .booleanLiteral
  flag : ∀ {t t' : Tree}, T t t' →
    t'.core.firstToken?.map (·.text) = t.core.firstToken?.map (·.text)

theorem Tree.Correspondence.sameTexts {T : Tree → Tree → Prop} (hT : Tree.Correspondence T) :
    Tree.SameTexts T where
  key := hT.stringKey?
  isFlag h := hT.isOf (hT.core h) _
  flag {t t'} h := by
    have hfirst := hT.firstToken? (hT.core h)
    generalize t.core.firstToken? = a, t'.core.firstToken? = a' at hfirst
    cases hfirst with
    | none => rfl
    | some htext => exact congrArg some htext

namespace Builder

/-! ## Members -/

section Members

variable {α : Type} {V : α → α → Prop} {ms ms' : List (String × α)}

theorem rel_putMember (key : String) {value value' : α} (hvalue : V value value')
    (hms : Forall₂ (Prod.RProd Eq V) ms ms') :
    Forall₂ (Prod.RProd Eq V) (putMember key value ms) (putMember key value' ms') := by
  induction hms with
  | nil => exact .cons ⟨rfl, hvalue⟩ .nil
  | cons hm hrest ih =>
    obtain ⟨rfl, hv⟩ := hm
    simp only [putMember]
    split
    · exact .cons ⟨rfl, hvalue⟩ hrest
    · exact .cons ⟨rfl, hv⟩ ih

theorem rel_lookup (hms : Forall₂ (Prod.RProd Eq V) ms ms') (key : String) :
    Option.Rel V (ms.lookup key) (ms'.lookup key) := by
  induction hms with
  | nil => exact .none
  | @cons m m' _ _ hm _ ih =>
    obtain @⟨k, _, _, _, rfl, hv⟩ := hm
    simp only [lookup_cons]
    cases key == k with
    | true => exact .some hv
    | false => exact ih

theorem map_fst_eq (hms : Forall₂ (Prod.RProd Eq V) ms ms') : ms'.map (·.1) = ms.map (·.1) := by
  induction hms with
  | nil => rfl
  | cons hm _ ih =>
    obtain ⟨rfl, -⟩ := hm
    rw [map_cons, map_cons, ih]

variable {T : Tree → Tree → Prop} (hT : Tree.SameTexts T) {es es' : List (Tree × α)}

include hT

theorem alike_keyed (hes : Forall₂ (Prod.RProd T V) es es')
    (hms : Forall₂ (Prod.RProd Eq V) ms ms') :
    Except.Alike (fun _ _ => True) (Forall₂ (Prod.RProd Eq V)) (keyed es ms) (keyed es' ms') := by
  induction hes generalizing ms ms' with
  | nil => exact .ok hms
  | cons he _ ih =>
    obtain ⟨hkey, hvalue⟩ := he
    simp only [keyed, hT.key hkey]
    split
    · exact ih (rel_putMember _ hvalue hms)
    · exact .error trivial

theorem alike_members (hes : Forall₂ (Prod.RProd T V) es es') (required allowed : List String) :
    Except.Alike (fun _ _ => True) (Forall₂ (Prod.RProd Eq V)) (members required allowed es)
      (members required allowed es') := by
  have hkeyed := alike_keyed hT hes Forall₂.nil
  have hempty : es'.isEmpty = es.isEmpty := by cases hes <;> rfl
  simp only [members, hempty, bind, Except.bind]
  generalize keyed es [] = result, keyed es' [] = result' at hkeyed
  cases es.isEmpty with
  | true => exact .error trivial
  | false =>
    cases hkeyed with
    | error => exact .error trivial
    | ok hms =>
      simp only [map_fst_eq hms, Bool.false_eq_true, if_false, pure, Except.pure]
      split
      · exact .ok hms
      · exact .error trivial

end Members

/-- Two builders with the same helpers whose steps are related for trees that correspond. The numbers
that are asked for are integers and doubles. -/
structure Related (b b' : Builder) (T : Tree → Tree → Prop)
    (P : (α : Type) → Build α → Build α → Prop) : Prop where
  helpers : b'.helpers = b.helpers
  texts : Tree.SameTexts T
  congruence : Congruence P
  refuse : ∀ {α : Type} (reason reason' : Refusal), P α (refuse reason) (refuse reason')
  call : ∀ (family : Family) (key : String) (args : List Call),
    P Call (b.call family key args) (b'.call family key args)
  list : ∀ items : List Call, P Call (list items) (list items)
  plain : ∀ {t t' : Tree}, T t t' → P Call (b.plain t) (b'.plain t')
  string : ∀ {t t' : Tree}, T t t' → P Call (b.string t) (b'.string t')
  numeric : ∀ {type : ValueType} {t t' : Tree}, type = .integer ∨ type = .decimal → T t t' →
    P Call (b.numeric type t) (b'.numeric type t')
  number : ∀ {t t' : Tree}, T t t' → P Number (b.number t) (b'.number t')
  shown : ∀ n : Number, P String (liftM (Render.ofConversion n.write : Render String))
    (liftM (Render.ofConversion n.write : Render String))

namespace Related

variable {b b' : Builder} {T : Tree → Tree → Prop} {P : (α : Type) → Build α → Build α → Prop}
  (hb : b.Related b' T P) {α β : Type} {t t' : Tree} {s s' : Shape}

include hb

theorem pure (a : α) : P α (pure a) (pure a) := hb.congruence.pure a

theorem bind {x x' : Build α} {f f' : α → Build β} (hx : P α x x') (hf : ∀ a, P β (f a) (f' a)) :
    P β (x >>= f) (x' >>= f') := hb.congruence.bind hx hf

omit hb in
theorem ite {p : Prop} [Decidable p] {x x' y y' : Build α} (hx : P α x x') (hy : P α y y') :
    P α (if p then x else y) (if p then x' else y') := by
  split
  · exact hx
  · exact hy

/-! ## Values -/

theorem key (h : T t t') : P _ (key t) (Builder.key t') := by
  unfold Builder.key
  rw [hb.texts.key h]
  split
  · exact hb.pure _
  · exact hb.refuse _ _

theorem field (h : T t t') : P _ (b.field t) (b'.field t') :=
  hb.bind (hb.congruence.map _ (hb.key h)) fun _ => hb.plain h

theorem truth (h : T t t') : P _ (b.truth t) (b'.truth t') := by
  unfold Builder.truth
  simp only [hb.texts.isFlag h, hb.texts.flag h]
  split
  · exact hb.pure _
  · exact hb.bind (hb.number h) fun _ => hb.pure _

/-! ## Members, entries and items -/

theorem members {V : α → α → Prop} {required allowed : List String} {es es' : List (Tree × α)}
    {f f' : List (String × α) → Build β} (hes : Forall₂ (Prod.RProd T V) es es')
    (hf : ∀ {ms ms' : List (String × α)}, Forall₂ (Prod.RProd Eq V) ms ms' →
      P _ (f ms) (f' ms')) :
    P _ (ofRefusal (members required allowed es) >>= f)
      (ofRefusal (Builder.members required allowed es') >>= f') := by
  have halike := alike_members hb.texts hes required allowed
  generalize Builder.members required allowed es = result,
    Builder.members required allowed es' = result' at halike
  cases halike with
  | ok hms => exact hf hms
  | @error reason reason' => exact hb.refuse reason reason'

theorem member {V : α → α → Prop} {ms ms' : List (String × α)} {f f' : α → Build β}
    (hms : Forall₂ (Prod.RProd Eq V) ms ms') (key : String)
    (hf : ∀ {a a' : α}, V a a' → P _ (f a) (f' a')) :
    P _ (member key ms >>= f) (Builder.member key ms' >>= f') := by
  have hlookup := rel_lookup hms key
  unfold Builder.member
  generalize ms.lookup key = a, ms'.lookup key = a' at hlookup
  cases hlookup with
  | none => exact hb.refuse _ _
  | some h => exact hf h

theorem entries (h : Shape.Both T s s') {f f' : List (Tree × Shape) → Build β}
    (hf : P _ (f s.entries) (f' s'.entries)) : P _ (entries s >>= f) (Builder.entries s' >>= f') := by
  have hempty : s'.entries.isEmpty = s.entries.isEmpty := by
    have hentries := h.entries
    generalize s.entries = es, s'.entries = es' at hentries
    cases hentries <;> rfl
  unfold Builder.entries
  rw [hempty]
  split
  · exact hb.refuse _ _
  · exact hf

theorem items (h : Shape.Both T s s') {f f' : List Shape → Build β}
    (hf : P _ (f s.items) (f' s'.items)) : P _ (items s >>= f) (Builder.items s' >>= f') := by
  have hempty : s'.items.isEmpty = s.items.isEmpty := by
    have hitems := h.items
    generalize s.items = l, s'.items = l' at hitems
    cases hitems <;> rfl
  unfold Builder.items
  rw [hempty]
  split
  · exact hb.refuse _ _
  · exact hf

theorem twoItems (h : Shape.Both T s s') {f f' : Shape × Shape → Build β}
    (hf : ∀ {a a' c c' : Shape}, Shape.Both T a a' → Shape.Both T c c' → P _ (f (a, c)) (f' (a', c'))) :
    P _ (twoItems s >>= f) (Builder.twoItems s' >>= f') := by
  have hitems := h.items
  unfold Builder.twoItems
  generalize s.items = l, s'.items = l' at hitems
  obtain _ | ⟨hfirst, _ | ⟨hsecond, _ | ⟨_, _⟩⟩⟩ := hitems
  · exact hb.refuse _ _
  · exact hb.refuse _ _
  · exact hf hfirst hsecond
  · exact hb.refuse _ _

/-! ## Geometry -/

theorem coordinates (h : Shape.Both T s s') : P _ (b.coordinates s) (b'.coordinates s') := by
  refine hb.items h ?_
  rw [h.items.length_eq]
  refine ite (hb.refuse _ _) ?_
  exact hb.congruence.mapM h.items fun hitem => hb.numeric (.inr rfl) hitem.tree

theorem position (h : Shape.Both T s s') : P _ (b.position s) (b'.position s') :=
  hb.bind (hb.coordinates h) fun _ => hb.call _ _ _

theorem eachItem {g g' : Shape → Build α} {f f' : List α → Build β} (h : Shape.Both T s s')
    (hg : ∀ {a a' : Shape}, Shape.Both T a a' → P _ (g a) (g' a')) (hf : ∀ l, P _ (f l) (f' l)) :
    P _ (Builder.items s >>= fun l => l.mapM g >>= f) (Builder.items s' >>= fun l => l.mapM g' >>= f') :=
  hb.items h (hb.bind (hb.congruence.mapM h.items hg) hf)

theorem positions (h : Shape.Both T s s') : P _ (b.positions s) (b'.positions s') :=
  hb.eachItem h hb.position fun _ => hb.list _

theorem rings (h : Shape.Both T s s') : P _ (b.rings s) (b'.rings s') :=
  hb.items h (hb.congruence.mapM h.items hb.positions)

theorem geometryArguments (h : Shape.Both T s s') (kind : GeometryKind) :
    P _ (b.geometryArguments s kind) (b'.geometryArguments s' kind) := by
  cases kind with
  | point => exact hb.bind (hb.position h) fun _ => hb.pure _
  | multiPoint => exact hb.bind (hb.positions h) fun _ => hb.pure _
  | lineString => exact hb.bind (hb.positions h) fun _ => hb.pure _
  | multiLineString =>
    exact hb.eachItem h hb.positions fun _ => hb.bind (hb.list _) fun _ => hb.pure _
  | polygon => exact hb.rings h
  | multiPolygon =>
    exact hb.eachItem h (fun h => hb.bind (hb.rings h) fun _ => hb.call _ _ _) fun _ =>
      hb.bind (hb.list _) fun _ => hb.pure _

theorem coordinateGeometry (kind : Option String) {c c' : Option Shape}
    (hc : Option.Rel (Shape.Both T) c c') :
    P _ (b.coordinateGeometry kind c) (b'.coordinateGeometry kind c') := by
  unfold Builder.coordinateGeometry
  cases kind.bind GeometryKind.ofLabel? with
  | none => exact hb.refuse _ _
  | some kind =>
    cases hc with
    | none => exact hb.refuse _ _
    | some h => exact hb.bind (hb.geometryArguments h kind) fun _ => hb.call _ _ _

/-- Geometries from members with what their values collect. -/
theorem geometryOf {ms ms' : List (String × Shape × Build (List Call))}
    (hms : Forall₂ (Prod.RProd Eq (Prod.RProd (Shape.Both T) (P _))) ms ms') :
    P _ (b.geometryOf ms) (b'.geometryOf ms') := by
  have hcoordinates := rel_lookup hms "coordinates"
  have hgeometries := rel_lookup hms "geometries"
  refine hb.member hms "type" fun hkind => ?_
  obtain ⟨hkind, -⟩ := hkind
  dsimp only
  rw [hb.texts.key hkind.tree]
  generalize ms.lookup "coordinates" = c, ms'.lookup "coordinates" = c' at hcoordinates
  generalize ms.lookup "geometries" = g, ms'.lookup "geometries" = g' at hgeometries
  have hcollect {x x' : Build (List Call)} (hx : P _ x x') :
      P _ (do
          let parts ← Builder.list (← x)
          return ("GeometryCollection", ← b.call .geojson "GeometryCollection" [parts]))
        (do
          let parts ← Builder.list (← x')
          return ("GeometryCollection", ← b'.call .geojson "GeometryCollection" [parts])) :=
    hb.bind hx fun _ => hb.bind (hb.list _) fun _ => hb.bind (hb.call _ _ _) fun _ => hb.pure _
  split
  · cases hgeometries with
    | some hg =>
      obtain ⟨-, hx⟩ := hg
      exact hcollect hx
    | none =>
      cases hcoordinates with
      | some hc =>
        obtain ⟨-, hx⟩ := hc
        exact hcollect hx
      | none => exact hb.refuse _ _
  · cases hgeometries with
    | some => exact hb.refuse _ _
    | none =>
      refine hb.bind (hb.coordinateGeometry _ ?_) fun _ => hb.pure _
      cases hcoordinates with
      | some hc =>
        obtain ⟨hshape, -⟩ := hc
        exact .some hshape
      | none => exact .none

end Related

variable {b b' : Builder} {T : Tree → Tree → Prop} {P : (α : Type) → Build α → Build α → Prop}

mutual

theorem Related.geometry (hb : b.Related b' T P) : (s : Shape) → {s' : Shape} → Shape.Both T s s' →
    P _ (b.geometry s) (b'.geometry s')
  | .document _ entries, _, .document _ hentries =>
    hb.members (hb.collections entries hentries) fun hms => hb.geometryOf hms
  | .array _ _, _, .array _ _ => hb.refuse _ _
  | .scalar _, _, .scalar _ => hb.refuse _ _

theorem Related.collections (hb : b.Related b' T P) : (es : List (Tree × Shape)) →
    {es' : List (Tree × Shape)} → Forall₂ (Prod.RProd T (Shape.Both T)) es es' →
    Forall₂ (Prod.RProd T (Prod.RProd (Shape.Both T) (P _))) (b.collections es)
      (b'.collections es')
  | [], _, .nil => .nil
  | (_, value) :: rest, _, .cons ⟨hkey, hvalue⟩ hrest =>
    .cons ⟨hkey, hvalue, hb.collected value hvalue⟩ (hb.collections rest hrest)

theorem Related.collected (hb : b.Related b' T P) : (s : Shape) → {s' : Shape} → Shape.Both T s s' →
    P _ (b.collected s) (b'.collected s')
  | .array _ (first :: rest), _, .array _ (.cons hfirst hrest) =>
    hb.bind (hb.geometry first hfirst) fun _ => hb.bind (hb.geometries rest hrest) fun _ => hb.pure _
  | .array _ [], _, .array _ .nil => hb.refuse _ _
  | .document _ _, _, .document _ _ => hb.refuse _ _
  | .scalar _, _, .scalar _ => hb.refuse _ _

theorem Related.geometries (hb : b.Related b' T P) : (l : List Shape) → {l' : List Shape} →
    Forall₂ (Shape.Both T) l l' → P _ (b.geometries l) (b'.geometries l')
  | [], _, .nil => hb.pure _
  | first :: rest, _, .cons hfirst hrest =>
    hb.bind (hb.geometry first hfirst) fun _ => hb.bind (hb.geometries rest hrest) fun _ => hb.pure _

end

end Builder

end QueryScribe
