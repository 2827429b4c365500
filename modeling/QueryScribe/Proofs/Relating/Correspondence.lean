import Mathlib.Data.List.Forall2
import QueryScribe.Query.Shape
import QueryScribe.Render.Call

/-!
# Trees that correspond

Of a tree only its rules, the texts of its tokens and the notes about its nodes count when it is written.
A correspondence relates trees of one form, down to the texts of their tokens, whatever their numbers and
places. All that is asked of a tree while it is written has then the same answer for both, or answers
that correspond again: nodes (`core`, `callArguments`), views as numbers (`Signed.Both`) and shapes
(`Shape.Both`).

A property that the nodes below a node have with it is a correspondence of trees with themselves
(`Correspondence.of_children`).
-/

namespace QueryScribe

open List

theorem forall₂_tail {α β : Type} {R : α → β → Prop} {l : List α} {l' : List β}
    (h : Forall₂ R l l') : Forall₂ R l.tail l'.tail := by
  cases h with
  | nil => exact .nil
  | cons _ hrest => exact hrest

namespace Tree

/-- Trees are related to trees of the same form, node by node. -/
structure Correspondence (T : Tree → Tree → Prop) : Prop where
  leaf : ∀ {i : Nat} {token : Token} {t' : Tree}, T (leaf i token) t' →
    ∃ i' token', t' = Tree.leaf i' token' ∧ token'.text = token.text
  node : ∀ {i : Nat} {rule : Rule} {span : Span} {cs : List Tree} {t' : Tree},
    T (node i rule span cs) t' → ∃ i' span' cs', t' = Tree.node i' rule span' cs' ∧ List.Forall₂ T cs cs'

namespace Correspondence

variable {T : Tree → Tree → Prop} (hT : Correspondence T) {t t' : Tree} (h : T t t')

/-- A property of nodes that those below have with them relates each tree to itself. -/
theorem of_children {D : Tree → Prop} (hD : ∀ t, D t → ∀ c ∈ t.children, D c) :
    Correspondence fun t t' => t = t' ∧ D t where
  leaf := by
    rintro i token _ ⟨rfl, -⟩
    exact ⟨i, token, rfl, rfl⟩
  node := by
    rintro i rule span cs _ ⟨rfl, ht⟩
    exact ⟨i, span, cs, rfl, forall₂_same.2 fun c hc => ⟨rfl, hD _ ht c hc⟩⟩

include hT h

theorem rule? : t'.rule? = t.rule? := by
  cases t with
  | leaf => obtain ⟨_, _, rfl, -⟩ := hT.leaf h; rfl
  | node => obtain ⟨_, _, _, rfl, -⟩ := hT.node h; rfl

theorem isNode : t'.isNode = t.isNode := by
  cases t with
  | leaf => obtain ⟨_, _, rfl, -⟩ := hT.leaf h; rfl
  | node => obtain ⟨_, _, _, rfl, -⟩ := hT.node h; rfl

theorem isOf (r : Rule) : t'.isOf r = t.isOf r := by rw [Tree.isOf, Tree.isOf, hT.rule? h]

theorem children : Forall₂ T t.children t'.children := by
  cases t with
  | leaf => obtain ⟨_, _, rfl, -⟩ := hT.leaf h; exact .nil
  | node => obtain ⟨_, _, _, rfl, hcs⟩ := hT.node h; exact hcs

variable {cs cs' : List Tree}

omit h in
theorem filter_isNode (hcs : Forall₂ T cs cs') :
    Forall₂ T (cs.filter Tree.isNode) (cs'.filter Tree.isNode) := by
  induction hcs with
  | nil => exact .nil
  | cons hc _ ih =>
    rw [filter_cons, filter_cons, hT.isNode hc]
    split
    · exact .cons hc ih
    · exact ih

theorem subtrees : Forall₂ T t.subtrees t'.subtrees := hT.filter_isNode (hT.children h)

theorem texts : t'.tokens.map (·.text) = t.tokens.map (·.text) := by
  have hchildren := hT.children h
  unfold Tree.tokens
  generalize t.children = cs at hchildren
  generalize t'.children = cs' at hchildren
  induction hchildren with
  | nil => rfl
  | @cons c _ _ _ hc _ ih =>
    cases c with
    | leaf =>
      obtain ⟨_, _, rfl, htext⟩ := hT.leaf hc
      exact congrArg₂ List.cons htext ih
    | node => obtain ⟨_, _, _, rfl, -⟩ := hT.node hc; exact ih

omit h in
theorem map_texts (hcs : Forall₂ T cs cs') :
    (cs'.map fun c => String.join (c.tokens.map (·.text))) =
      cs.map fun c => String.join (c.tokens.map (·.text)) := by
  induction hcs with
  | nil => rfl
  | cons hc _ ih => rw [map_cons, map_cons, ih, hT.texts hc]

theorem flatMap_tokens {α : Type} (f : String → List α) :
    (t'.tokens.flatMap fun token => f token.text) = t.tokens.flatMap fun token => f token.text := by
  have hmap (ts : List Token) : (ts.flatMap fun token => f token.text) = (ts.map (·.text)).flatMap f := by
    rw [flatMap_map]
  rw [hmap, hmap, hT.texts h]

theorem isPassThrough : t'.isPassThrough = t.isPassThrough := by
  cases t with
  | leaf => obtain ⟨_, _, rfl, -⟩ := hT.leaf h; rfl
  | node =>
    obtain ⟨_, _, _, rfl, hcs⟩ := hT.node h
    cases hcs with
    | nil => rfl
    | cons hc hrest =>
      cases hrest with
      | nil => simp only [Tree.isPassThrough, hT.isNode hc]
      | cons => rfl

omit h in
theorem core : {t t' : Tree} → T t t' → T t.core t'.core
  | .leaf _ _, _, h => by obtain ⟨_, _, rfl, -⟩ := hT.leaf h; exact h
  | .node _ _ _ [], _, h => by obtain ⟨_, _, _, rfl, hcs⟩ := hT.node h; cases hcs; exact h
  | .node _ _ _ [c], _, h => by
    have hpass := hT.isPassThrough h
    obtain ⟨_, _, _, rfl, hcs⟩ := hT.node h
    cases hcs with
    | cons hc hrest =>
      cases hrest
      simp only [Tree.core, skipUntil, hpass]
      split
      · exact core hc
      · exact h
  | .node _ _ _ (_ :: _ :: _), _, h => by
    obtain ⟨_, _, _, rfl, hcs⟩ := hT.node h
    cases hcs with
    | cons _ hrest => cases hrest; exact h

omit hT h in
mutual

theorem firstToken? (hT : Correspondence T) : {t t' : Tree} → T t t' →
    Option.Rel (fun a a' : Token => a'.text = a.text) t.firstToken? t'.firstToken?
  | .leaf _ _, _, h => by
    obtain ⟨_, _, rfl, htext⟩ := hT.leaf h
    exact .some htext
  | .node _ _ _ cs, _, h => by
    obtain ⟨_, _, _, rfl, hcs⟩ := hT.node h
    exact firstTokenIn? hT cs hcs

theorem firstTokenIn? (hT : Correspondence T) : (cs : List Tree) → {cs' : List Tree} →
    Forall₂ T cs cs' → Option.Rel (fun a a' : Token => a'.text = a.text)
      (Tree.firstTokenIn? cs) (Tree.firstTokenIn? cs')
  | [], _, .nil => .none
  | c :: cs, c' :: _, .cons hc hcs => by
    have hfirst := firstToken? hT hc
    rw [Tree.firstTokenIn?, Tree.firstTokenIn?]
    generalize c.firstToken? = a, c'.firstToken? = a' at hfirst
    cases hfirst with
    | none => exact firstTokenIn? hT cs hcs
    | some htext => exact .some htext

end

omit hT h in
mutual

theorem height (hT : Correspondence T) : {t t' : Tree} → T t t' → t'.height = t.height
  | .leaf _ _, _, h => by obtain ⟨_, _, rfl, -⟩ := hT.leaf h; rfl
  | .node _ _ _ cs, _, h => by
    obtain ⟨_, _, _, rfl, hcs⟩ := hT.node h
    rw [Tree.height, Tree.height, heightIn hT cs hcs]

theorem heightIn (hT : Correspondence T) : (cs : List Tree) → {cs' : List Tree} → Forall₂ T cs cs' →
    Tree.heightIn cs' = Tree.heightIn cs
  | [], _, .nil => rfl
  | _ :: cs, _, .cons hc hcs => by rw [Tree.heightIn, Tree.heightIn, height hT hc, heightIn hT cs hcs]

end

theorem callArguments : Forall₂ T t.callArguments t'.callArguments := by
  have htail := forall₂_tail (hT.subtrees h)
  unfold Tree.callArguments
  generalize t.subtrees.tail = cs at htail
  generalize t'.subtrees.tail = cs' at htail
  induction htail with
  | nil => exact .nil
  | @cons c _ _ _ hc _ ih =>
    rw [find?_cons, find?_cons, hT.isOf hc]
    cases c.isOf .argList with
    | true => exact hT.subtrees hc
    | false => exact ih

theorem flagOperands : Forall₂ T t.flagOperands t'.flagOperands := by
  have hcore := hT.core h
  simp only [Tree.flagOperands, hT.isOf hcore]
  split
  · exact hT.subtrees hcore
  · exact .cons hcore .nil

omit h in
theorem any_isOf (hcs : Forall₂ T cs cs') (r : Rule) :
    (cs'.any fun t => t.isOf r) = cs.any fun t => t.isOf r := by
  induction hcs with
  | nil => rfl
  | cons hc _ ih => rw [any_cons, any_cons, ih, hT.isOf hc]

omit h in
theorem all_keyValue (hcs : Forall₂ T cs cs') :
    (cs'.all fun t => !t.isNode || t.isOf .keyValue) = cs.all fun t => !t.isNode || t.isOf .keyValue := by
  induction hcs with
  | nil => rfl
  | cons hc _ ih => rw [all_cons, all_cons, ih, hT.isNode hc, hT.isOf hc]

theorem stringKey? : t'.stringKey? = t.stringKey? := by
  have hcore := hT.core h
  simp only [Tree.stringKey?, hT.isOf hcore]
  rw [hT.flatMap_tokens hcore fun text => StringToken.body text.toList]

end Correspondence

end Tree

/-! ## Numbers with signs -/

namespace Signed

/-- Views of trees that correspond. -/
inductive Both (T : Tree → Tree → Prop) : Signed → Signed → Prop
  | literal {passed passed' : List Tree} {core core' : Tree} {text : String} :
    List.Forall₂ T passed passed' → T core core' → Both T (literal passed core text) (literal passed' core' text)
  | signed {passed passed' : List Tree} {sign : String} {operand operand' : Tree} {view view' : Signed} :
    List.Forall₂ T passed passed' → T operand operand' → Both T view view' →
      Both T (signed passed sign operand view) (signed passed' sign operand' view')
  | other {passed passed' : List Tree} : List.Forall₂ T passed passed' → Both T (other passed) (other passed')

variable {T : Tree → Tree → Prop}

theorem Both.isNumber {view view' : Signed} (h : Both T view view') : view'.isNumber = view.isNumber := by
  induction h with
  | literal => rfl
  | signed _ _ _ ih => exact ih
  | other => rfl

/-- The views of nodes that correspond, below nodes that do. -/
theorem both_under (hT : Tree.Correspondence T) : {passed passed' : List Tree} → (t : Tree) →
    {t' : Tree} → T t t' → Forall₂ T passed passed' → Both T (under passed t) (under passed' t')
  | _, _, .leaf _ _, _, h, hpassed => by
    obtain ⟨_, _, rfl, -⟩ := hT.leaf h
    exact .other (rel_append hpassed (.cons h .nil))
  | _, _, .node i rule span cs, _, h, hpassed => by
    have hpass := rel_append hpassed (.cons h .nil)
    have hfirst := hT.firstToken? h
    obtain ⟨i', span', cs', rfl, hcs⟩ := hT.node h
    by_cases hnumber : rule.isNumber
    · unfold under
      simp only [hnumber, if_true]
      generalize (Tree.node i rule span cs).firstToken? = a,
        (Tree.node i' rule span' cs').firstToken? = a' at hfirst
      cases hfirst with
      | none => exact .other hpass
      | some htext =>
        dsimp only
        rw [htext]
        exact .literal hpass h
    · match cs, hcs with
      | [], .nil => simpa [under, hnumber] using .other hpass
      | [.leaf _ _], .cons hc .nil =>
        obtain ⟨_, _, rfl, -⟩ := hT.leaf hc
        simpa [under, hnumber] using .other hpass
      | [.node j r s ds], .cons hc .nil =>
        have hview := both_under hT (.node j r s ds) hc hpass
        obtain ⟨_, _, _, rfl, -⟩ := hT.node hc
        simp only [under, hnumber, Bool.false_eq_true, if_false]
        split
        · exact .other hpass
        · exact hview
      | [.leaf _ _, operand], .cons hc (.cons hoperand .nil) =>
        have hview := both_under hT operand hoperand .nil
        obtain ⟨_, _, rfl, hsign⟩ := hT.leaf hc
        simp only [under, hnumber, Bool.false_eq_true, if_false, hsign]
        split
        · exact .signed hpass hoperand hview
        · exact .other hpass
      | .node _ _ _ _ :: _ :: _, .cons hc (.cons _ _) =>
        obtain ⟨_, _, _, rfl, -⟩ := hT.node hc
        simpa [under, hnumber] using .other hpass
      | .leaf _ _ :: _ :: _ :: _, .cons hc (.cons _ (.cons _ _)) =>
        obtain ⟨_, _, rfl, -⟩ := hT.leaf hc
        simpa [under, hnumber] using .other hpass

theorem both_ofTree (hT : Tree.Correspondence T) {t t' : Tree} (h : T t t') :
    Both T (ofTree t) (ofTree t') :=
  both_under hT t h .nil

end Signed

/-! ## Shapes -/

namespace Shape

/-- Shapes of nodes that correspond. -/
inductive Both (T : Tree → Tree → Prop) : Shape → Shape → Prop
  | document {tree tree' : Tree} {entries entries' : List (Tree × Shape)} : T tree tree' →
    List.Forall₂ (Prod.RProd T (Both T)) entries entries' →
      Both T (document tree entries) (document tree' entries')
  | array {tree tree' : Tree} {items items' : List Shape} : T tree tree' →
    List.Forall₂ (Both T) items items' → Both T (array tree items) (array tree' items')
  | scalar {tree tree' : Tree} : T tree tree' → Both T (scalar tree) (scalar tree')

variable {T : Tree → Tree → Prop}

namespace Both

variable {s s' : Shape} (h : Both T s s')

include h

theorem tree : T s.tree s'.tree := by
  cases h with
  | document ht => exact ht
  | array ht => exact ht
  | scalar ht => exact ht

theorem entries : Forall₂ (Prod.RProd T (Both T)) s.entries s'.entries := by
  cases h with
  | document _ hentries => exact hentries
  | array => exact .nil
  | scalar => exact .nil

theorem items : Forall₂ (Both T) s.items s'.items := by
  cases h with
  | document => exact .nil
  | array _ hitems => exact hitems
  | scalar => exact .nil

end Both

theorem rel_operatorsOf? (hkeys : ∀ {t t' : Tree}, T t t' → t'.stringKey? = t.stringKey?) {α : Type}
    {V : α → α → Prop} {entries entries' : List (Tree × α)}
    (h : Forall₂ (Prod.RProd T V) entries entries') :
    Option.Rel (Forall₂ (Prod.RProd Eq V)) (operatorsOf? entries) (operatorsOf? entries') := by
  induction h with
  | nil => exact .some .nil
  | @cons e e' rest rest' he _ ih =>
    obtain ⟨hkey, hvalue⟩ := he
    simp only [operatorsOf?, hkeys hkey]
    split
    · split
      · generalize operatorsOf? rest = operators at ih
        generalize operatorsOf? rest' = operators' at ih
        cases ih with
        | none => exact .none
        | some h => exact .some (.cons ⟨rfl, hvalue⟩ h)
      · exact .none
    · exact .none

theorem Both.operators? (hkeys : ∀ {t t' : Tree}, T t t' → t'.stringKey? = t.stringKey?)
    {s s' : Shape} (h : Both T s s') :
    Option.Rel (Forall₂ (Prod.RProd Eq (Both T))) s.operators? s'.operators? := by
  cases h with
  | document _ hentries => exact rel_operatorsOf? hkeys hentries
  | array => exact .none
  | scalar => exact .none

theorem under_singleton {rule : Rule} (harray : rule ≠ .arrayLiteral) (hobject : rule ≠ .objectLiteral)
    (top t : Tree) (i : Nat) (span : Span) :
    under top (.node i rule span [t]) = if rule.isCategory then scalar top else under top t := by
  cases t <;> simp [under, harray, hobject]

mutual

/-- The shapes of nodes that correspond, below nodes that do. -/
theorem both_under (hT : Tree.Correspondence T) {top top' : Tree} (htop : T top top') :
    (t : Tree) → {t' : Tree} → T t t' → Both T (under top t) (under top' t')
  | .leaf _ _, _, h => by
    obtain ⟨_, _, rfl, -⟩ := hT.leaf h
    exact .scalar htop
  | .node _ rule _ [], _, h => by
    obtain ⟨_, _, _, rfl, hcs⟩ := hT.node h
    cases hcs
    by_cases harray : rule = .arrayLiteral
    · subst harray
      exact .array htop .nil
    · simpa [under, harray] using .scalar htop
  | .node _ rule _ (.leaf _ _ :: rest), _, h => by
    obtain ⟨_, _, _, rfl, hcs⟩ := hT.node h
    cases hcs with
    | cons hc hrest =>
      obtain ⟨_, _, rfl, -⟩ := hT.leaf hc
      by_cases harray : rule = .arrayLiteral
      · subst harray
        exact .array htop .nil
      · cases hrest <;> simpa [under, harray] using .scalar htop
  | .node _ rule _ (.node i r span cs :: rest), _, h => by
    obtain ⟨_, _, _, rfl, hchildren⟩ := hT.node h
    cases hchildren with
    | cons hc hrest =>
      have hchild := both_under hT htop (.node i r span cs) hc
      obtain ⟨_, _, _, rfl, hcs⟩ := hT.node hc
      have hentries := rel_entriesOf hT cs hcs
      by_cases harray : rule = .arrayLiteral
      · subst harray
        exact .array htop (rel_itemsOf hT cs hcs)
      by_cases hobject : rule = .objectLiteral
      · subst hobject
        simp only [under, hT.all_keyValue hcs]
        split
        · generalize entriesOf cs = entries at hentries
          generalize entriesOf _ = entries' at hentries
          cases hentries with
          | nil => exact .scalar htop
          | cons he hes => exact .document htop (.cons he hes)
        · exact .scalar htop
      cases hrest with
      | nil =>
        rw [under_singleton harray hobject, under_singleton harray hobject]
        split
        · exact .scalar htop
        · exact hchild
      | cons => simpa [under, harray, hobject] using .scalar htop

theorem rel_entriesOf (hT : Tree.Correspondence T) : (ts : List Tree) → {ts' : List Tree} →
    Forall₂ T ts ts' → Forall₂ (Prod.RProd T (Both T)) (entriesOf ts) (entriesOf ts')
  | [], _, .nil => .nil
  | .leaf _ _ :: rest, _, .cons h hrest => by
    obtain ⟨_, _, rfl, -⟩ := hT.leaf h
    simp only [entriesOf]
    exact rel_entriesOf hT rest hrest
  | .node _ _ _ [] :: rest, _, .cons h hrest => by
    obtain ⟨_, _, _, rfl, hcs⟩ := hT.node h
    cases hcs
    simp only [entriesOf]
    exact rel_entriesOf hT rest hrest
  | .node _ _ _ [_] :: rest, _, .cons h hrest => by
    obtain ⟨_, _, _, rfl, hcs⟩ := hT.node h
    obtain _ | ⟨_, hnil⟩ := hcs
    cases hnil
    simp only [entriesOf]
    exact rel_entriesOf hT rest hrest
  | .node _ _ _ (_ :: value :: _) :: rest, _, .cons h hrest => by
    obtain ⟨_, _, _, rfl, hcs⟩ := hT.node h
    obtain _ | ⟨hkey, _ | ⟨hvalue, _⟩⟩ := hcs
    simp only [entriesOf]
    exact .cons ⟨hkey, both_under hT hvalue value hvalue⟩ (rel_entriesOf hT rest hrest)

theorem rel_itemsOf (hT : Tree.Correspondence T) : (ts : List Tree) → {ts' : List Tree} →
    Forall₂ T ts ts' → Forall₂ (Both T) (itemsOf ts) (itemsOf ts')
  | [], _, .nil => .nil
  | .leaf _ _ :: rest, _, .cons h hrest => by
    obtain ⟨_, _, rfl, -⟩ := hT.leaf h
    simp only [itemsOf]
    exact rel_itemsOf hT rest hrest
  | .node i rule span cs :: rest, _, .cons h hrest => by
    have hfirst := both_under hT h (.node i rule span cs) h
    obtain ⟨_, _, _, rfl, -⟩ := hT.node h
    exact .cons hfirst (rel_itemsOf hT rest hrest)

end

theorem both_ofTree (hT : Tree.Correspondence T) {t t' : Tree} (h : T t t') :
    Both T (ofTree t) (ofTree t') :=
  both_under hT h t h

end Shape

end QueryScribe
