import QueryScribe.Proofs.Expression.Basic

/-!
# Plain expressions are written from what they say

Whatever was noted before, a node of a plain expression is written as the text of what it says, if the
target has a text for each of its literals and does not look for queries in its documents. A step over a
renderer that writes what is below so does the same (`writtenBy_step`), and so does a whole run
(`writtenBy_render`).
-/

namespace QueryScribe

open List

open QueryScribe.Tree
open Render (Ends exec)

/-! ## Texts for nodes -/

namespace Tree

variable {s t : Tree} {target : Target}

/-- An action writes a node as a text and notes its type, whatever was noted before. -/
def WrittenBy (t : Tree) (text : String) (m : Render String) : Prop :=
  ∀ j, Ends (fun _ => True) (fun _ => False) m j fun out n => out = text ∧ n.Typed t

/-- Whether a target has a text for a node: for a literal it can fail, and a document may be a query. -/
def isWritable (target : Target) : Tree → Bool
  | node _ .objectLiteral _ _ => target.helpers.isNone
  | node _ rule _ [leaf _ token] =>
    rule.literalKinds.isEmpty || (target.writeLiteral rule.literalType token.text).toOption.isSome
  | _ => true

end Tree

namespace Render.Ends

variable {E : Fault → Prop} {t c : Tree} {j : Journal} {text : String}

theorem noteType (type : ValueType) :
    Ends (fun _ => True) E (Render.setType t type) j fun _ n => n.Typed t := by
  have hmark : ∀ n : Notes, (n.setType t type).mark = fun i =>
      if i = t.id then (n.mark i).withType type else n.mark i :=
    fun n => funext fun i => Notes.mark_setType _ _ _ _
  refine .note ⟨trivial, fun i => ?_⟩ ?_ fun k hk => ?_
  · rw [hmark]
    dsimp only
    split
    · exact Mark.kept_withType _ _
    · exact .refl _
  · rw [hmark, Marks.Typed, if_pos rfl, Mark.withType]
    cases (j.notes.mark t.id).type <;> rfl
  · rw [hmark, hmark]
    exact hk.setType trivial

theorem typedFrom (hc : Marks.Typed j.notes.mark c) :
    Ends (fun _ => True) E (do
      Render.setType t (← Render.typeOf c)
      return text) j fun out n => out = text ∧ n.Typed t :=
  .bind (.typeOf (Q := fun _ _ => True) trivial hc fun _ _ => trivial) fun type _ _ _ =>
    .bind (noteType type) fun _ _ _ htyped => .pure trivial ⟨rfl, htyped⟩

theorem typedAs (type : ValueType) :
    Ends (fun _ => True) E (do
      Render.setType t type
      return text) j fun out n => out = text ∧ n.Typed t :=
  .bind (noteType type) fun _ _ _ htyped => .pure trivial ⟨rfl, htyped⟩

theorem mapM_written {f : Tree → String} {g : Tree → Render String} {cs : List Tree}
    (h : ∀ c ∈ cs, c.WrittenBy (f c) (g c)) (j : Journal) :
    Ends (fun _ => True) (fun _ => False) (cs.mapM g) j fun texts n =>
      texts = cs.map f ∧ ∀ c ∈ cs, n.Typed c := by
  refine (mapM (S := fun c text n => text = f c ∧ n.Typed c) trivial
    (fun _ _ _ _ hafter hc => ⟨hc.1, hc.2.after hafter⟩) fun c hc k _ => h c hc k).imp ?_
  intro texts n _ htexts
  have hall := htexts.imp (S := fun c text => n.Typed c ∧ text = f c) fun _ _ hc => ⟨hc.2, hc.1⟩
  obtain ⟨htyped, heq⟩ := (forall₂_and_left _ _).1 hall
  have hmap : Forall₂ Eq texts (cs.map f) := forall₂_map_right_iff.2 heq.flip
  exact ⟨forall₂_eq_eq_eq ▸ hmap, htyped⟩

end Render.Ends

/-! ## One node -/

namespace Renderer

/-- A node of a plain expression, over a renderer that writes what is below from what it says. -/
structure Expressing (r : Renderer) (t : Tree) : Prop where
  plain : t.Plain
  writable : ∀ s ∈ t.nodes, s.isWritable r.target = true
  below : ∀ s ∈ nodesIn t.children, s.isVisited →
    ∀ b, s.WrittenBy (s.expr.text r.target) (r.visit b s)

variable {r : Renderer} {b : Bool} {i k : Nat} {rule : Rule} {span sp : Span} {cs : List Tree}
  {c d op t : Tree} {token : Token}

theorem Expressing.visit (h : r.Expressing t) (hc : c ∈ t.children) (hvisited : c.isVisited) (b : Bool) :
    c.WrittenBy (c.expr.text r.target) (r.visit b c) :=
  (Below.of_nodesIn h.below).child c hc hvisited b

theorem Expressing.visit_below (h : r.Expressing t) (hc : c ∈ t.children) (hd : d ∈ c.children)
    (hvisited : d.isVisited) (b : Bool) : d.WrittenBy (d.expr.text r.target) (r.visit b d) :=
  (Below.of_nodesIn h.below).listed c hc d hd hvisited b

theorem writtenBy_collapse (h : r.Expressing (.node i rule span [c])) (hc : c.isVisited) :
    (node i rule span [c]).WrittenBy (c.expr.text r.target)
      (r.collapse b (.node i rule span [c])) := by
  intro j
  refine .bind (h.visit (.head _) hc b j) fun text k _ htext => ?_
  rw [← htext.1]
  exact .typedFrom htext.2

theorem writtenBy_literal (h : r.Expressing (.node i rule span [.leaf k token]))
    (hrule : token.kind ∈ rule.literalKinds) :
    (node i rule span [.leaf k token]).WrittenBy (r.target.literalText rule.literalType token.text)
      (r.ofRule b (.node i rule span [.leaf k token]) rule) := by
  intro j
  have htype : (node i rule span [.leaf k token]).natural = rule.literalType := by
    rw [natural_node]
    cases rule
    all_goals first | rfl | cases hrule
  obtain ⟨text, hok⟩ : ∃ text, r.target.writeLiteral rule.literalType token.text = .ok text := by
    have hwritable := h.writable _ (self_mem_nodes rfl)
    have hsome : (r.target.writeLiteral rule.literalType token.text).toOption.isSome := by
      cases rule
      all_goals first | exact hwritable | cases hrule
    obtain ⟨text, htext⟩ := Option.isSome_iff_exists.1 hsome
    exact ⟨text, eq_ok_of_mem_toOption htext⟩
  rw [ofRule_of_literal hrule, htype, Target.literalText, hok]
  refine .bind (.noteType _) fun _ k₁ _ htyped => ?_
  refine .useThen trivial fun k₂ hk₂ => ?_
  refine .ofFault trivial (fun fault herror => ?_) fun out hout => ⟨?_, htyped.after hk₂⟩
  · rw [hok] at herror
    cases herror
  · rw [hok] at hout
    exact (Except.ok.inj hout).symm

/-! ## Collections -/

theorem elements_eq {listing : Rule} (h : (node i rule span [.node k listing sp cs]).Plain)
    (hcs : ∀ c ∈ cs, c.isNode) :
    r.elements (.node i rule span [.node k listing sp cs]) = pure cs := by
  have hsubtrees : (node k listing sp cs).subtrees = cs := filter_eq_self.2 hcs
  have hnone : cs.any (·.isOf .compFor) = false := by
    refine any_eq_false.2 fun c hc => ?_
    rw [((h.child (.head _) rfl).child hc (hcs c hc)).isOf_compFor]
    exact Bool.false_ne_true
  rw [elements, children]
  dsimp only
  rw [hsubtrees, hnone]
  rfl

theorem writtenBy_sequence (hcs : ∀ c ∈ cs, c.WrittenBy (c.expr.text r.target) (r.visit b c)) :
    t.WrittenBy ((Expr.array (cs.map expr)).text r.target) (r.sequence b t cs) := by
  intro j
  refine .bind (.noteType .array) fun _ k₁ _ htyped => ?_
  refine .useThen trivial fun k₂ hk₂ => ?_
  refine .bind (.mapM_written hcs k₂) fun texts k₃ hk₃ htexts => ?_
  refine .pure trivial ⟨?_, htyped.after (hk₂.trans hk₃)⟩
  rw [htexts.1, Expr.text, Expr.texts_eq_map, map_map]
  rfl

theorem writtenBy_arrayLiteral (h : r.Expressing (.node i .arrayLiteral span [.node k .testListComp sp cs]))
    (hcs : ∀ c ∈ cs, c.isVisited) :
    (node i .arrayLiteral span [.node k .testListComp sp cs]).WrittenBy
      ((Expr.array (cs.map expr)).text r.target)
      (r.arrayLiteral b (.node i .arrayLiteral span [.node k .testListComp sp cs])) := by
  rw [arrayLiteral, elements_eq h.plain fun c hc => isNode_of_isVisited (hcs c hc), pure_bind]
  exact writtenBy_sequence fun c hc => h.visit_below (.head _) hc (hcs c hc) b

theorem writtenBy_setLiteral (h : r.Expressing (.node i .setLiteral span [.node k .testListComp sp [c]]))
    (hc : c.isVisited) : (node i .setLiteral span [.node k .testListComp sp [c]]).WrittenBy
      ((Expr.parenthesized c.expr).text r.target)
      (r.setLiteral b (.node i .setLiteral span [.node k .testListComp sp [c]])) := by
  intro j
  have hnode : ∀ d ∈ [c], d.isNode :=
    forall_mem_singleton.2 (isNode_of_isVisited hc)
  rw [setLiteral, elements_eq h.plain hnode, pure_bind]
  refine .bind (h.visit_below (.head _) (.head _) hc b j) fun text k _ htext => ?_
  rw [Expr.text, ← htext.1]
  exact .typedFrom htext.2

theorem writtenBy_plainDocument (hcs : ∀ e ∈ cs, e.IsEntry)
    (h : ∀ e ∈ cs, ∀ c ∈ e.children, c.isVisited →
      c.WrittenBy (c.expr.text r.target) (r.visit false c)) :
    t.WrittenBy ((Expr.document (cs.flatMap (·.expr.keys)) (cs.flatMap (·.expr.values))).text r.target)
      (r.plainDocument t cs) := by
  intro j
  refine .bind (.noteType .object) fun _ k₁ _ htyped => ?_
  refine .useThen trivial fun k₂ hk₂ => ?_
  refine .bind (.mapM (S := fun e text _ => text = entryText r.target e) trivial (fun _ _ _ _ _ he => he)
    fun e he k₃ _ => ?_) fun texts k₃ hk₃ htexts => ?_
  · obtain ⟨i, sp, key, value, rfl, hkey, hvalue⟩ := hcs e he
    refine .bind (h _ he key (.head _) hkey k₃) fun keyText k₄ _ hkeyText => ?_
    refine .bind (h _ he value (.tail _ (.head _)) hvalue k₄) fun valueText k₅ _ hvalueText => ?_
    exact .pure trivial (Prod.ext hkeyText.1 hvalueText.1)
  · have hmap : Forall₂ Eq texts (cs.map (entryText r.target)) :=
      forall₂_map_right_iff.2 htexts.flip
    rw [forall₂_eq_eq_eq] at hmap
    refine .pure trivial ⟨?_, htyped.after (hk₂.trans hk₃)⟩
    rw [hmap, Expr.text, zip_texts_entries _ hcs]

theorem objectLiteral_eq (h : r.target.helpers = none) {entries : List Tree}
    (helements : r.elements t = pure entries) (hkeys : ∀ e ∈ entries, e.IsEntry) :
    r.objectLiteral b t = r.plainDocument t entries := by
  rw [objectLiteral, helements, pure_bind]
  cases entries with
  | nil => rfl
  | cons first rest =>
    have hquery : ∀ shapes, r.query? shapes = pure none := by
      intro shapes
      rw [query?, h]
    have hfirst : first.isOf .keyValue := by
      obtain ⟨i, sp, key, value, rfl, -⟩ := hkeys first (.head _)
      rfl
    simp only [hfirst, hquery, pure_bind, ite_self, Bool.not_true, Bool.false_eq_true, if_false]

/-! ## Operators -/

theorem writtenBy_logical (h : r.Expressing (.node i rule span (c :: cs)))
    (hcs : ∀ e ∈ c :: cs, e.isVisited) (join : List String → String) :
    (node i rule span (c :: cs)).WrittenBy
      (join (((c :: cs).map expr).map (Expr.text r.target)))
      (r.logical b (.node i rule span (c :: cs)) join) := by
  intro j
  have hsubtrees : (node i rule span (c :: cs)).subtrees = c :: cs :=
    (parts_eq_children hcs).2
  rw [logical, hsubtrees]
  refine .bind (.mapM_written (fun e he => h.visit he (hcs e he) b) j) fun texts k _ htexts => ?_
  have htext : texts = ((c :: cs).map expr).map (Expr.text r.target) := by
    rw [htexts.1, map_map]
    rfl
  rw [← htext]
  exact .typedFrom (htexts.2 c (.head _))

theorem writtenBy_negation (h : r.Expressing (.node i .notTest span [.leaf k token, c]))
    (hc : c.isVisited) : (node i .notTest span [.leaf k token, c]).WrittenBy
      (r.target.negation (c.expr.text r.target))
      (r.negation b (.node i .notTest span [.leaf k token, c])) := by
  intro j
  have hsubtrees : (node i .notTest span [.leaf k token, c]).subtrees = [c] := by
    simp [subtrees, children, isNode_of_isVisited hc]
  rw [negation, hsubtrees]
  refine .bind (h.visit (by simp [children]) hc b j) fun text k₁ _ htext => ?_
  rw [← htext.1]
  exact .typedAs .bool

theorem writtenBy_sign (h : r.Expressing (.node i .factor span [.leaf k token, c])) (hc : c.isVisited) :
    (node i .factor span [.leaf k token, c]).WrittenBy (token.text ++ c.expr.text r.target)
      (r.sign b (.node i .factor span [.leaf k token, c])) := by
  intro j
  refine .bind (h.visit (by simp [children]) hc b j) fun text k₁ _ htext => ?_
  rw [← htext.1]
  exact .typedFrom htext.2

theorem writtenBy_power (h : r.Expressing (.node i .power span [c, .leaf k token, d])) (hc : c.isVisited)
    (hd : d.isVisited) : (node i .power span [c, .leaf k token, d]).WrittenBy
      (r.target.power (c.expr.text r.target) (d.expr.text r.target))
      (r.power b (.node i .power span [c, .leaf k token, d])) := by
  intro j
  have hsubtrees : (node i .power span [c, .leaf k token, d]).subtrees = [c, d] := by
    simp [subtrees, children, isNode_of_isVisited hc, isNode_of_isVisited hd]
  rw [power, hsubtrees]
  refine .bind (h.visit (by simp [children]) hc b j) fun base k₁ _ hbase => ?_
  refine .bind (h.visit (by simp [children]) hd b k₁) fun exponent k₂ hk₂ hexponent => ?_
  rw [← hbase.1, ← hexponent.1]
  exact .typedFrom (hbase.2.after hk₂)

theorem forall_mem_everySecond {α : Type} {A B : α → Prop} {a : α} {l : List α} (ha : B a)
    (h : Alternates A B l) : ∀ e ∈ everySecond (a :: l), e ∈ a :: l ∧ B e := by
  induction h generalizing a with
  | nil =>
    intro e he
    obtain rfl := mem_singleton.1 he
    exact ⟨.head _, ha⟩
  | @cons op b rest _ hb _ ih =>
    intro e he
    rcases mem_cons.1 he with rfl | he
    · exact ⟨.head _, ha⟩
    · exact ⟨.tail _ (.tail _ (ih hb e he).1), (ih hb e he).2⟩

theorem writtenBy_comparison (h : r.Expressing (.node i .comparison span (c :: op :: cs)))
    (hc : c.isVisited) (hcs : Alternates (·.rule? = some .compOp) (·.isVisited) (op :: cs)) :
    (node i .comparison span (c :: op :: cs)).WrittenBy
      ((Expr.comparison ((everySecond (c :: op :: cs)).map expr)
        ((everySecond (op :: cs)).map spelling)).text r.target)
      (r.comparison b (.node i .comparison span (c :: op :: cs))) := by
  intro j
  have hoperands := forall_mem_everySecond (B := fun e : Tree => e.isVisited) hc hcs
  refine .bind (.mapM_written (fun e he => h.visit (hoperands e he).1 (hoperands e he).2 b) j)
    fun operands k₁ _ hoperands => ?_
  have htexts : operands = ((everySecond (c :: op :: cs)).map expr).map (Expr.text r.target) := by
    rw [hoperands.1, map_map]
    rfl
  rw [Expr.text, Expr.texts_eq_map, ← htexts]
  have hspelling : (everySecond (node i .comparison span (c :: op :: cs)).children.tail).map
      (fun op => String.join (op.tokens.map (·.text))) = (everySecond (op :: cs)).map spelling := rfl
  rw [hspelling]
  dsimp only
  generalize links r.target.compare operands ((everySecond (op :: cs)).map spelling) = ls
  rcases ls with _ | ⟨first, _ | ⟨second, rest⟩⟩
  all_goals exact .typedAs .bool

theorem ends_operationsFrom (hcs : Alternates (·.isNode = false) (·.isVisited) cs)
    (h : ∀ e ∈ cs, e.isVisited → e.WrittenBy (e.expr.text r.target) (r.visit b e)) (a : Expr)
    (j : Journal) :
    Ends (fun _ => True) (fun _ => False) (r.operations b (a.text r.target) cs) j fun out _ =>
      out = (a.operations cs (cs.map expr)).text r.target := by
  induction hcs generalizing a j with
  | nil => exact .pure trivial rfl
  | @cons op operand rest hop hoperand _ ih =>
    cases op with
    | node => cases hop
    | leaf id token =>
      refine .bind (h operand (by simp) hoperand j) fun second k _ hsecond => ?_
      rw [hsecond.1]
      exact ih (fun e he => h e (by simp [he])) (.operation token.text a operand.expr) k

theorem writtenBy_operation (h : r.Expressing (.node i rule span (c :: cs))) (hc : c.isVisited)
    (hcs : Alternates (·.isNode = false) (·.isVisited) cs) :
    (node i rule span (c :: cs)).WrittenBy ((c.expr.operations cs (cs.map expr)).text r.target)
      (r.operation b (.node i rule span (c :: cs))) := by
  intro j
  refine .bind (h.visit (.head _) hc b j) fun first k₁ _ hfirst => ?_
  rw [hfirst.1]
  have hvisit : ∀ e ∈ cs, e.isVisited → e.WrittenBy (e.expr.text r.target) (r.visit b e) :=
    fun e he hvisited => h.visit (mem_cons_of_mem c he) hvisited b
  refine .bind (ends_operationsFrom hcs hvisit c.expr k₁) fun text k₂ hk₂ htext => ?_
  rw [← htext]
  exact .typedFrom (hfirst.2.after hk₂)

/-! ## All nodes -/

/-- A step writes a node of a plain expression from what it says, over a renderer that writes what is
below so. -/
theorem writtenBy_step (h : r.Expressing (.node i rule span cs)) (hform : PlainForm rule cs) :
    (node i rule span cs).WrittenBy ((node i rule span cs).expr.text r.target)
      (r.step b (.node i rule span cs)) := by
  change (node i rule span cs).WrittenBy _ (r.ofRule b (.node i rule span cs) rule)
  cases hform with
  | wrapper hrule hc =>
    rw [ofRule_of_isWrapper hrule (isNode_of_isVisited hc),
      expr_wrapper hrule (isNode_of_isVisited hc)]
    exact writtenBy_collapse h hc
  | literal hrule =>
    rw [expr_literal hrule]
    exact writtenBy_literal h hrule
  | parenthesized hc => exact writtenBy_setLiteral h hc
  | emptyArray =>
    have hnone : ∀ c ∈ ([] : List Tree), c.WrittenBy (c.expr.text r.target) (r.visit b c) := nofun
    exact writtenBy_sequence hnone
  | array hcs =>
    rw [expr_array]
    exact writtenBy_arrayLiteral h hcs
  | emptyDocument =>
    have hnone : ∀ e ∈ ([] : List Tree), e.IsEntry := nofun
    exact writtenBy_plainDocument hnone nofun
  | @document k sp cs hcs =>
    have hhelpers : r.target.helpers = none :=
      Option.isNone_iff_eq_none.1 (h.writable _ (self_mem_nodes rfl))
    have hnode : ∀ e ∈ cs, e.isNode := by
      intro e he
      obtain ⟨i, sp, key, value, rfl, -⟩ := hcs e he
      rfl
    change (node _ _ _ _).WrittenBy _ (r.objectLiteral b _)
    rw [expr_document, objectLiteral_eq hhelpers (elements_eq h.plain hnode) hcs]
    exact writtenBy_plainDocument hcs fun e he c hc hvisited =>
      (Below.of_nodesIn h.below).entry _ (.head _) e he c hc hvisited false
  | disjunction hcs =>
    rw [expr_disjunction, Expr.text, Expr.texts_eq_map]
    exact writtenBy_logical h hcs _
  | conjunction hcs =>
    rw [expr_conjunction, Expr.text, Expr.texts_eq_map]
    exact writtenBy_logical h hcs _
  | negation _ hc => exact writtenBy_negation h hc
  | comparison hc hcs =>
    rw [expr_comparison]
    exact writtenBy_comparison h hc hcs
  | operation hrule hc hcs =>
    rw [expr_operation hrule]
    have hoperation := writtenBy_operation (b := b) h hc hcs
    cases rule
    all_goals first | exact hoperation | cases hrule
  | sign _ hc => exact writtenBy_sign h hc
  | power _ hc hd => exact writtenBy_power h hc hd

end Renderer

theorem writtenBy_render {target : Target} (source : Source) {t : Tree} (h : t.Plain)
    (hwritable : ∀ s ∈ t.nodes, s.isWritable target) (hvisited : t.isVisited) (b : Bool) :
    t.WrittenBy (t.expr.text target) (render target source b t) := by
  have hnode := isNode_of_isVisited hvisited
  revert hwritable hvisited b
  refine h.induction (motive := fun t => (∀ s ∈ t.nodes, s.isWritable target) → t.isVisited →
    ∀ b, t.WrittenBy (t.expr.text target) (render target source b t)) hnode ?_
  intro id rule span cs hplain ih hwritable hvisited b
  have htarget : (Renderer.below target source (.node id rule span cs)).target = target :=
    Renderer.target_within _
  rw [Renderer.render_eq_step]
  have hstep := Renderer.writtenBy_step (r := .below target source (.node id rule span cs)) (b := b)
    ⟨hplain, by rwa [htarget], fun s hs hs' b' => ?_⟩ (hplain.plainForm hvisited)
  · rwa [htarget] at hstep
  · obtain ⟨c, hc, hsc⟩ := mem_nodesIn.1 hs
    have hmem : s ∈ (node id rule span cs).nodes := mem_nodes_node.2 (.inr ⟨c, hc, hsc⟩)
    have hlt : s.height < (node id rule span cs).height :=
      Nat.lt_of_le_of_lt (height_le_of_mem_nodes hsc) (height_lt_of_mem_children hc)
    have hvisit : (Renderer.below target source (.node id rule span cs)).visit b' s =
        render target source b' s := Renderer.visit_within b' (Nat.le_sub_one_of_lt hlt)
    rw [hvisit, htarget]
    exact ih s hs (fun u hu => hwritable u (mem_nodes_trans hmem hu)) hs' b'

end QueryScribe
