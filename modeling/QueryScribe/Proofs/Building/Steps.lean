import QueryScribe.Proofs.Building.Members
import QueryScribe.Proofs.Relating.Query

/-!
# Building step by step

A property of single actions that sequencing keeps and that the steps of building have
(`Builder.Steps`) holds of filters, stages and queries: it is a relation of each action with itself.
What the steps ask of the nodes they write has to hold of all keys and values of the document
(`Shape.All`).
-/

namespace QueryScribe

open List

namespace Shape

mutual

/-- All nodes of a shape have a property. -/
def All (T : Tree → Prop) : Shape → Prop
  | document tree entries => T tree ∧ EntriesAll T entries
  | array tree items => T tree ∧ ItemsAll T items
  | scalar tree => T tree

/-- All nodes of some entries have a property. -/
def EntriesAll (T : Tree → Prop) : List (Tree × Shape) → Prop
  | [] => True
  | (key, value) :: rest => (T key ∧ All T value) ∧ EntriesAll T rest

/-- All nodes of some shapes have a property. -/
def ItemsAll (T : Tree → Prop) : List Shape → Prop
  | [] => True
  | first :: rest => All T first ∧ ItemsAll T rest

end

variable {T : Tree → Prop} {s : Shape}

theorem entriesAll_iff {entries : List (Tree × Shape)} :
    EntriesAll T entries ↔ ∀ e ∈ entries, T e.1 ∧ e.2.All T := by
  induction entries with
  | nil => simp [EntriesAll]
  | cons e rest ih => simp [EntriesAll, ih]

theorem itemsAll_iff {items : List Shape} : ItemsAll T items ↔ ∀ s ∈ items, s.All T := by
  induction items with
  | nil => simp [ItemsAll]
  | cons s rest ih => simp [ItemsAll, ih]

mutual

theorem All.imp {T' : Tree → Prop} (h : ∀ t, T t → T' t) : {s : Shape} → s.All T → s.All T'
  | document _ _, hs => ⟨h _ hs.1, EntriesAll.imp h hs.2⟩
  | array _ _, hs => ⟨h _ hs.1, ItemsAll.imp h hs.2⟩
  | scalar _, hs => h _ hs

theorem EntriesAll.imp {T' : Tree → Prop} (h : ∀ t, T t → T' t) :
    {entries : List (Tree × Shape)} → EntriesAll T entries → EntriesAll T' entries
  | [], _ => trivial
  | _ :: _, hs => ⟨⟨h _ hs.1.1, All.imp h hs.1.2⟩, EntriesAll.imp h hs.2⟩

theorem ItemsAll.imp {T' : Tree → Prop} (h : ∀ t, T t → T' t) :
    {items : List Shape} → ItemsAll T items → ItemsAll T' items
  | [], _ => trivial
  | _ :: _, hs => ⟨All.imp h hs.1, ItemsAll.imp h hs.2⟩

end

theorem All.tree (h : s.All T) : T s.tree := by
  cases s with
  | document tree entries => exact h.1
  | array tree items => exact h.1
  | scalar tree => exact h

theorem All.entries (h : s.All T) : ∀ e ∈ s.entries, T e.1 ∧ e.2.All T := by
  cases s with
  | document tree entries => exact entriesAll_iff.1 h.2
  | array tree items => exact fun _ he => nomatch he
  | scalar tree => exact fun _ he => nomatch he

theorem All.items (h : s.All T) : ∀ i ∈ s.items, i.All T := by
  cases s with
  | document tree entries => exact fun _ hi => nomatch hi
  | array tree items => exact itemsAll_iff.1 h.2
  | scalar tree => exact fun _ hi => nomatch hi

mutual

theorem All.both : {s : Shape} → s.All T → Both (fun t t' => t = t' ∧ T t) s s
  | document _ _, h => .document ⟨rfl, h.1⟩ (EntriesAll.both h.2)
  | array _ _, h => .array ⟨rfl, h.1⟩ (ItemsAll.both h.2)
  | scalar _, h => .scalar ⟨rfl, h⟩

theorem EntriesAll.both : {entries : List (Tree × Shape)} → EntriesAll T entries →
    Forall₂ (Prod.RProd (fun t t' => t = t' ∧ T t) (Both fun t t' => t = t' ∧ T t)) entries entries
  | [], _ => .nil
  | (_, _) :: _, h => .cons ⟨⟨rfl, h.1.1⟩, All.both h.1.2⟩ (EntriesAll.both h.2)

theorem ItemsAll.both : {items : List Shape} → ItemsAll T items →
    Forall₂ (Both fun t t' => t = t' ∧ T t) items items
  | [], _ => .nil
  | _ :: _, h => .cons (All.both h.1) (ItemsAll.both h.2)

end

mutual

theorem All.of_both : (s : Shape) → {s' : Shape} → Both (fun t t' => t = t' ∧ T t) s s' → s.All T
  | document _ entries, _, .document h hentries => ⟨h.2, EntriesAll.of_both entries hentries⟩
  | array _ items, _, .array h hitems => ⟨h.2, ItemsAll.of_both items hitems⟩
  | scalar _, _, .scalar h => h.2

theorem EntriesAll.of_both : (es : List (Tree × Shape)) → {es' : List (Tree × Shape)} →
    Forall₂ (Prod.RProd (fun t t' => t = t' ∧ T t) (Both fun t t' => t = t' ∧ T t)) es es' →
    EntriesAll T es
  | [], _, _ => trivial
  | (_, value) :: rest, _, .cons ⟨hkey, hvalue⟩ hrest =>
    ⟨⟨hkey.2, All.of_both value hvalue⟩, EntriesAll.of_both rest hrest⟩

theorem ItemsAll.of_both : (l : List Shape) → {l' : List Shape} →
    Forall₂ (Both fun t t' => t = t' ∧ T t) l l' → ItemsAll T l
  | [], _, _ => trivial
  | first :: rest, _, .cons hfirst hrest =>
    ⟨All.of_both first hfirst, ItemsAll.of_both rest hrest⟩

end

end Shape

namespace Builder

/-- A property that the steps of building have, and that sequencing keeps. The steps that write a
node have it for nodes with a property `T`; the numbers that are asked for are integers and
doubles. -/
structure Steps (b : Builder) (T : Tree → Prop) (P : (α : Type) → Build α → Prop) : Prop where
  sequential : Sequential P
  refuse : ∀ {α : Type} (reason : Refusal), P α (refuse reason)
  call : ∀ (family : Family) (key : String) (args : List Call), P Call (b.call family key args)
  list : ∀ items : List Call, P Call (list items)
  plain : ∀ {t : Tree}, T t → P Call (b.plain t)
  string : ∀ {t : Tree}, T t → P Call (b.string t)
  numeric : ∀ {type : ValueType} {t : Tree}, type = .integer ∨ type = .decimal → T t →
    P Call (b.numeric type t)
  number : ∀ {t : Tree}, T t → P Number (b.number t)
  shown : ∀ n : Number, P String (liftM (Render.ofConversion n.write : Render String))

variable {b : Builder} {T : Tree → Prop} {P : (α : Type) → Build α → Prop} {s : Shape} {α : Type}

/-- A property of the steps is a relation of each with itself. -/
theorem Steps.related (hb : b.Steps T P) :
    b.Related b (fun t t' => t = t' ∧ T t) fun α m _ => P α m where
  helpers := rfl
  texts := ⟨fun h => h.1 ▸ rfl, fun h => h.1 ▸ rfl, fun h => h.1 ▸ rfl⟩
  congruence := hb.sequential.congruence
  refuse reason _ := hb.refuse reason
  call := hb.call
  list := hb.list
  plain h := hb.plain h.2
  string h := hb.string h.2
  numeric htype h := hb.numeric htype h.2
  number h := hb.number h.2
  shown := hb.shown

theorem rel_options {options : Option Tree} (hoptions : ∀ t ∈ options, T t) :
    Option.Rel (fun t t' => t = t' ∧ T t) options options := by
  cases options with
  | none => exact .none
  | some t => exact .some ⟨rfl, hoptions t rfl⟩

theorem holds_regexClause (hb : b.Steps T P) (field : Call) {options : Option Tree}
    (hoptions : ∀ t ∈ options, T t) (hs : s.All T) : P _ (b.regexClause field options s) :=
  hb.related.regexClause field (rel_options hoptions) hs.both

theorem holds_plainClause (hb : b.Steps T P) (field : Call) {siblings : Siblings}
    (hoptions : ∀ t ∈ siblings.options, T t) (op : String) (hs : s.All T) :
    P _ (b.plainClause field siblings op s) :=
  hb.related.plainClause field ⟨rel_options hoptions, rfl⟩ op hs.both

theorem holds_filter (hb : b.Steps T P) (s : Shape) (hs : s.All T) : P _ (b.filter s) :=
  hb.related.filter s hs.both

theorem holds_entryClauses (hb : b.Steps T P) {keyTree : Tree} (hkey : T keyTree) (s : Shape)
    (hs : s.All T) : P _ (b.entryClauses keyTree s) :=
  hb.related.entryClauses ⟨rfl, hkey⟩ s hs.both

theorem holds_operatorClause (hb : b.Steps T P) (field : Call) {siblings : Siblings}
    (hoptions : ∀ t ∈ siblings.options, T t) (op : String) (s : Shape) (hs : s.All T) :
    P _ (b.operatorClause field siblings op s) :=
  hb.related.operatorClause field ⟨rel_options hoptions, rfl⟩ op s hs.both

theorem holds_query (hb : b.Steps T P) {entries : List (Tree × Shape)}
    (h : Shape.EntriesAll T entries) : P _ (b.query entries) :=
  hb.related.query h.both

end Builder

end QueryScribe
