import QueryScribe.Proofs.Printing.Code
import QueryScribe.Proofs.Reader.Groups
import QueryScribe.Proofs.Wrapping

/-!
# Tuples

The commas of a group of expressions leave nothing in its tree, so a tuple is told from an expression
in parentheses by its number of elements alone. A group of several elements is written as an array, a
group of one is not, comma or not (`compile_tuple_of_one_differs`).

An element is written in the group as it is alone. Its nodes have other numbers and places there, which
makes no difference (`alike_render`), and the elements before it leave no notes of its nodes, so that it
finds them as blank as at the start. What is written of the elements is therefore known from compiling
each of them, and a group compiles if its elements do (`compile_groupOf`).
-/

namespace QueryScribe

open List

open Renderer QueryScribe.Tree
open Render (exec exec_bind)

/-! ## Trees in other places -/

namespace Tree

mutual

theorem Shifted.numberFrom (d n : Nat) : (t t' : Tree) → t'.unplaced = t.unplaced →
    Shifted d (t.numberFrom n).1 (t'.numberFrom (n + d)).1 ∧
      (t'.numberFrom (n + d)).2 = (t.numberFrom n).2 + d
  | .leaf _ token, .leaf _ token', h => by
    simp only [unplaced_leaf, leaf.injEq] at h
    have htext : token'.unplaced.text = token.unplaced.text := congrArg Token.text h.2
    exact ⟨.leaf htext, Nat.add_right_comm n d 1⟩
  | .node _ _ _ cs, .node _ _ _ cs', h => by
    simp only [unplaced_node, node.injEq, true_and] at h
    obtain ⟨-, rfl, hcs⟩ := h
    obtain ⟨hshifted, hnext⟩ := Shifted.numberFromIn d (n + 1) cs cs' hcs
    rw [Nat.add_right_comm] at hshifted hnext
    exact ⟨.node hshifted, hnext⟩
  | .leaf _ _, .node _ _ _ _, h => by simp at h
  | .node _ _ _ _, .leaf _ _, h => by simp at h

theorem Shifted.numberFromIn (d n : Nat) : (ts ts' : List Tree) →
    ts'.map unplaced = ts.map unplaced →
    Forall₂ (Shifted d) (numberFromIn n ts).1 (numberFromIn (n + d) ts').1 ∧
      (numberFromIn (n + d) ts').2 = (numberFromIn n ts).2 + d
  | [], [], _ => ⟨.nil, rfl⟩
  | t :: ts, t' :: ts', h => by
    obtain ⟨ht, hts⟩ := List.cons.inj h
    obtain ⟨hfirst, hnext⟩ := Shifted.numberFrom d n t t' ht
    obtain ⟨hrest, hlast⟩ := Shifted.numberFromIn d (t.numberFrom n).2 ts ts' hts
    rw [← hnext] at hrest hlast
    exact ⟨.cons hfirst hrest, hlast⟩
  | [], _ :: _, h => by simp at h
  | _ :: _, [], h => by simp at h

end

variable {t u : Tree} {rules : List Rule}

theorem rule?_unplaced (t : Tree) : t.unplaced.rule? = t.rule? := by
  cases t with
  | leaf => rfl
  | node => rw [unplaced_node, rule?, rule?]

theorem exists_of_unplaced_node {i : Nat} {rule : Rule} {span : Span} {us : List Tree}
    (h : t.unplaced = node i rule span us) :
    ∃ span' cs, t = node i rule span' cs ∧ cs.map unplaced = us := by
  cases t with
  | leaf => simp at h
  | node j rule' span' cs =>
    simp only [unplaced_node, node.injEq] at h
    obtain ⟨rfl, rfl, -, hcs⟩ := h
    exact ⟨span', cs, rfl, hcs⟩

theorem exists_of_unplaced_enclosed (hrules : ∀ rule ∈ rules, rule.wraps) (hu : u.isNode)
    (h : t.unplaced = u.enclosed rules) (n : Nat) :
    ∃ s : Tree, s.unplaced = u ∧ (t.numberFrom n).1.isNode ∧
      (t.numberFrom n).1.wrapped = (s.numberFrom (n + rules.length)).1.wrapped := by
  induction rules using List.reverseRecOn generalizing t n with
  | nil =>
    have hnode : ∀ t : Tree, (t.numberFrom n).1.isNode = t.unplaced.isNode := fun t => by
      cases t <;> simp [numberFrom, isNode]
    exact ⟨t, h, (hnode t).trans (h ▸ hu), rfl⟩
  | append_singleton rules rule ih =>
    rw [enclosed, foldl_append] at h
    obtain ⟨span, cs, rfl, hcs⟩ := exists_of_unplaced_node h
    obtain ⟨c, rfl, hc⟩ := map_eq_singleton_iff.1 hcs
    obtain ⟨s, hs, hnode, hwrapped⟩ := ih
      (fun r hr => hrules r (mem_append_left [rule] hr)) hc (n + 1)
    have hwraps := hrules rule (mem_append_right rules (mem_singleton_self rule))
    refine ⟨s, hs, rfl, ?_⟩
    change (node n rule span [(c.numberFrom (n + 1)).1]).wrapped = _
    rw [wrapped, if_pos (Bool.and_eq_true_iff.2 ⟨hnode, hwraps⟩), hwrapped, length_append,
      length_singleton, Nat.add_assoc, Nat.add_comm 1]

theorem exists_of_unplaced_program (hu : u.isNode) (h : t.unplaced = u.program) :
    ∃ s : Tree, s.unplaced = u ∧
      (t.numberFrom 0).1.children.map wrapped = [(s.numberFrom 6).1.wrapped] := by
  obtain ⟨span, cs, rfl, hcs⟩ := exists_of_unplaced_node h
  obtain ⟨c, rfl, hc⟩ := map_eq_singleton_iff.1 hcs
  obtain ⟨s, hs, -, hwrapped⟩ := exists_of_unplaced_enclosed (by decide) hu hc 1
  exact ⟨s, hs, congrArg (fun c => [c]) hwrapped⟩

end Tree

/-! ## Elements -/

theorem Derives.rule?_test {ts : List Token} {t : Tree} (h : Derives [.category (.rule .test)] ts [t]) :
    t.rule? = some .test := by
  have hnodes : ∀ p ∈ (Category.rule .test).productions, p.node = some .test := by decide
  generalize hxs : [Symbol.category (.rule .test)] = xs at h
  generalize htrees : [t] = trees at h
  cases h with
  | nil => cases hxs
  | terminal => cases hxs
  | @category _ _ _ inner _ p hp _ _ _ hrest =>
    obtain ⟨hcategory, rfl⟩ := List.cons.inj hxs
    have hmem := Production.mem_of_mem_productions hp
    rw [← Symbol.category.inj hcategory] at hmem
    cases hrest
    rw [Production.enclose, hnodes p hmem, append_nil] at htrees
    rw [singleton_inj.1 htrees]
    rfl

theorem typed_of_wrapped {source : String} {root c : Tree} (hparse : parse source = .ok root)
    (hchildren : root.children.map wrapped = [c]) {target : Target} {input : Source} {b : Bool}
    {text : String} {k : Journal} (h : exec (render target input b c) {} = (.ok text, k)) :
    Marks.Typed k.notes.mark c := by
  have hformed := formed_of_parse hparse
  obtain ⟨s, rfl, -, hmem, hvisited⟩ := exists_of_map_wrapped hparse hchildren
  have hnode : s.wrapped ∈ root.nodes :=
    mem_nodes_trans hmem (wrapped_mem_nodes (isNode_of_mem_nodes hmem))
  have hends := (ends_alone (hformed.of_mem_nodes hnode) (hformed.isVisited_wrapped hmem hvisited)
    target input b).ends
  rw [h] at hends
  exact hends

section Elements

variable {target : Target} {options : Options}

/-- A text is what is written of an expression that stands alone, and blanks around it aside, the
expression compiles to this text. -/
def Expression.Writes (x : Expression) (target : Target) (options : Options) (text : String) : Prop :=
  (alone target (options.source x.text) options.idiomatic x.root).1 = .ok text ∧
    ∃ imports, compile target options x.text = .ok ⟨trimmed text, imports⟩

/-- An expression that compiles has its text from the tree of the expression, and this gets a type. -/
theorem Expression.exists_writes (x : Expression) (htarget : target ∈ Target.all)
    (hcompiles : (compile target options x.text).isOk) :
    ∃ text s k, x.Writes target options text ∧ unplaced s = x.tree ∧
      exec (render target (options.source x.text) options.idiomatic (s.numberFrom 6).1) {} = (.ok text, k) ∧
      Marks.Typed k.notes.mark (s.numberFrom 6).1 := by
  obtain ⟨tree, hroot, htree⟩ := x.exists_root
  obtain ⟨s, hs, hchildren⟩ :=
    exists_of_unplaced_program (isNode_of_rule? x.derives.rule?_test) htree
  rw [← hroot] at hchildren
  obtain ⟨output, houtput⟩ : ∃ output, compile target options x.text = .ok output := by
    cases h : compile target options x.text with
    | error => rw [h] at hcompiles; cases hcompiles
    | ok output => exact ⟨output, rfl⟩
  rcases hexec : exec (render target (options.source x.text) options.idiomatic (s.numberFrom 6).1.wrapped) {}
    with ⟨result, k⟩
  have htyped : result.isOk → Marks.Typed k.notes.mark (s.numberFrom 6).1.wrapped := fun hok => by
    cases result with
    | error => cases hok
    | ok text => exact typed_of_wrapped x.parsed hchildren hexec
  have hcompile := compile_of_wrapped htarget x.parsed (exists_of_compile_eq_ok houtput).1 hchildren
    hexec htyped
  obtain ⟨l, halone, -⟩ := alone_of_wrapped htarget x.parsed hchildren hexec htyped
  obtain ⟨k', hexec', -, htyped'⟩ :=
    exec_render_of_wrapped (Target.ends_of_mem htarget).1 hexec htyped
  cases result with
  | error fault =>
    rw [hcompile] at houtput
    cases houtput
  | ok text =>
    exact ⟨text, s, k', ⟨congrArg Prod.fst halone, _, hcompile⟩, hs, hexec', htyped' rfl⟩

/-- An element is written as a text when nothing is noted, and then has a type. -/
def Tree.StandsFor (target : Target) (input : Source) (b : Bool) (e : Tree) (text : String) : Prop :=
  e.rule? = some .test ∧
    ∃ k, exec (render target input b e) {} = (.ok text, k) ∧ Marks.Typed k.notes.mark e

/-- The elements of a group are written as the texts of the expressions. -/
theorem exists_texts (htarget : target ∈ Target.all) {input : Source}
    (hinput : input.names = options.names) {xs : List Expression}
    (hcompiles : ∀ x ∈ xs, (compile target options x.text).isOk) {cs : List Tree}
    (hcs : cs.map unplaced = xs.map Expression.tree) {n : Nat} (hn : 6 ≤ n) :
    ∃ texts, Forall₂ (Expression.Writes · target options ·) xs texts ∧
      Forall₂ (Tree.StandsFor target input options.idiomatic) (numberFromIn n cs).1 texts := by
  induction xs generalizing cs n with
  | nil =>
    obtain rfl := map_eq_nil_iff.1 hcs
    exact ⟨[], .nil, .nil⟩
  | cons x xs ih =>
    obtain ⟨c, cs, rfl, hc, hcs⟩ := map_eq_cons_iff.1 hcs
    obtain ⟨hx, hxs⟩ := forall_mem_cons.1 hcompiles
    have hnext : (c.numberFrom n).2 = n + c.ids.length := (ids_numberFrom n c).2
    obtain ⟨texts, hwrites, hstand⟩ := ih hxs hcs (n := (c.numberFrom n).2) (by omega)
    obtain ⟨text, s, k, hwrite, hs, hexec, htyped⟩ := x.exists_writes htarget hx
    -- The element is the expression with its numbers so many on.
    obtain ⟨d, rfl⟩ := Nat.exists_eq_add_of_le hn
    have hshifted := (Tree.Shifted.numberFrom d 6 s c (hc.trans hs.symm)).1
    have hnames : input.names = (options.source x.text).names := by rw [hinput, Options.source]
    obtain ⟨hresult, hnotes⟩ := alike_render target hnames options.idiomatic hshifted {} {} ⟨rfl, fun _ => rfl⟩
    rcases hexec' : exec (render target input options.idiomatic (c.numberFrom (6 + d)).1) {} with
      ⟨result, k'⟩
    rw [hexec, hexec'] at hresult hnotes
    cases hresult with
    | ok heq =>
      subst heq
      refine ⟨text :: texts, .cons hwrite hwrites, .cons ⟨?_, k', hexec', ?_⟩ hstand⟩
      · rw [rule?_numberFrom, ← rule?_unplaced, hc, x.derives.rule?_test]
      · rw [Marks.Typed, hshifted.id_eq, hnotes.mark]
        exact htyped

end Elements

/-! ## Groups -/

/-- The text of a group: an array, or one text in parentheses. -/
def Target.groupText (target : Target) : List String → String
  | [text] => "(" ++ text ++ ")"
  | texts => target.writeArray texts

theorem Target.trimmed_groupText {target : Target} (htarget : target ∈ Target.all)
    (texts : List String) : trimmed (target.groupText texts) = target.groupText texts := by
  have hsharp : ∀ start ∈ ["(", "Arrays.asList(", "["], ∀ stop ∈ [")", "]"], ∀ between : String,
      trimmed (start ++ between ++ stop) = start ++ between ++ stop := by
    intro start hstart stop hstop between
    have hstart : Text.isSharp start.toList := by revert start; decide
    have hstop : Text.isSharp stop.toList := by revert stop; decide
    have hall := Text.isSharp_append hstart hstop between.toList
    rw [← String.toList_append, ← String.toList_append, ← String.append_assoc] at hall
    rw [trimmed, Text.trim_of_isSharp hall, String.ofList_toList]
  have harray : trimmed (target.writeArray texts) = target.writeArray texts := by
    simp only [Target.all, mem_cons, not_mem_nil, or_false] at htarget
    rcases htarget with rfl | rfl
    · exact hsharp "Arrays.asList(" (by simp) ")" (by simp) _
    · exact hsharp "[" (by simp) "]" (by simp) _
  unfold groupText
  split
  · exact hsharp "(" (by simp) ")" (by simp) _
  · exact harray

section Groups

variable {target : Target} {input : Source} {b : Bool} {texts : List String} {es : List Tree}

theorem exec_elements (hapart : Tree.Apart es)
    (h : Forall₂ (Tree.StandsFor target input b) es texts) {j : Journal}
    (hblank : ∀ e ∈ es, ∀ i ∈ e.region, j.notes.mark i = ⟨none, none⟩) :
    (exec (es.mapM (render target input b)) j).1 = .ok texts := by
  choose records hrecords using fun e => (keepsTo_render target input b e).congr {}
  have hempty : ∀ i, ({} : Journal).notes.mark i = ⟨none, none⟩ := fun i => by simp [Notes.mark]
  rw [(Render.exec_mapM_of_apart (keepsTo_render target input b) {}
    (fun e k hk => ⟨(hrecords e k hk).1, (hrecords e k hk).2.2⟩) hapart
    fun e he i hi => (hempty i).trans (hblank e he i hi).symm).1]
  clear hapart hblank
  induction h with
  | nil => rfl
  | cons hfirst _ ih =>
    obtain ⟨-, k, hexec, -⟩ := hfirst
    rw [mapM_cons, hexec, ih]
    rfl

variable {t listing : Tree}

theorem visit_element (hlisting : listing ∈ t.children) {e : Tree} (he : e ∈ listing.subtrees) :
    (below target input t).visit b e = render target input b e := by
  have hmem : e ∈ listing.nodes := mem_nodes_of_mem_children
    (mem_children_of_mem_subtrees he) (self_mem_nodes (mem_filter.1 he).2)
  exact visit_within b
    (Nat.le_sub_one_of_lt (height_lt_of_mem_nodes_of_mem_children hlisting hmem))

theorem exec_sequence (ht : t.Distinct) (hlisting : listing ∈ t.children)
    (h : Forall₂ (Tree.StandsFor target input b) listing.subtrees texts) :
    (exec ((below target input t).sequence b t listing.subtrees) {}).1 =
      .ok (target.writeArray texts) := by
  -- The type of the group is noted before its elements are written, under another number.
  have hall := exec_elements (ht.of_mem_children hlisting).apart_subtrees h
    (j := { notes := (({} : Notes).setType t .array).touch ValueType.array.code }) fun e he i hi => by
      have hne : i ≠ t.id := fun heq => ht.id_notMem_region hlisting
        (region_subset_of_mem_subtrees he (heq ▸ hi))
      rw [Notes.mark_touch, Notes.mark_setType, if_neg hne]
      simp [Notes.mark]
  have hvisit : listing.subtrees.mapM ((below target input t).visit b) =
      listing.subtrees.mapM (render target input b) :=
    mapM_congr_of_mem fun _ he => visit_element hlisting he
  have hsequence : exec ((below target input t).sequence b t listing.subtrees) {} =
      exec (do
        let texts ← listing.subtrees.mapM (render target input b)
        return target.writeArray texts)
        { notes := (({} : Notes).setType t .array).touch ValueType.array.code } := by
    rw [← hvisit, Renderer.sequence, below, target_within]
    rfl
  rw [hsequence, exec_bind]
  revert hall
  rcases exec (listing.subtrees.mapM (render target input b)) _ with ⟨result, k⟩
  rintro rfl
  rfl

/-- A group is written from the texts of its elements. -/
theorem exec_render_group {i l : Nat} {span span' : Span} {es : List Tree}
    (ht : (node i .setLiteral span [.node l .testListComp span' es]).Distinct)
    (h : Forall₂ (Tree.StandsFor target input b) es texts) :
    ∃ k, exec (render target input b (.node i .setLiteral span [.node l .testListComp span' es])) {} =
      (.ok (target.groupText texts), k) := by
  have hrules : ∀ e ∈ es, e.rule? = some .test := by
    clear ht
    induction h with
    | nil => nofun
    | cons hfirst _ ih => exact forall_mem_cons.2 ⟨hfirst.1, ih⟩
  have hsubtrees : (node l .testListComp span' es).subtrees = es :=
    filter_eq_self.2 fun e he => isNode_of_rule? (hrules e he)
  have hno : es.any (·.isOf .compFor) = false :=
    any_eq_false.2 fun e he => by simp [isOf, hrules e he]
  rw [← hsubtrees] at h
  have hsequence := exec_sequence ht (.head _) h
  have hvisit : ∀ e ∈ es, (below target input
      (.node i .setLiteral span [.node l .testListComp span' es])).visit b e =
        render target input b e := fun e he =>
    visit_element (.head _) (hsubtrees.symm ▸ he)
  refine ⟨_, Prod.ext ?_ rfl⟩
  rw [render_eq_step]
  change (exec ((below target input _).setLiteral b _) {}).1 = _
  rw [setLiteral, elements]
  dsimp only [children]
  rw [hsubtrees] at h hsequence ⊢
  rw [hno, if_neg Bool.false_ne_true, pure_bind]
  cases h with
  | nil => exact hsequence
  | cons hfirst hrest =>
    cases hrest with
    | cons => exact hsequence
    | nil =>
      obtain ⟨-, k, hexec, htyped⟩ := hfirst
      obtain ⟨l, hinherit, -⟩ := exec_inherit htyped _ ("(" ++ _ ++ ")")
      dsimp only
      rw [hvisit _ (.head _), exec_bind, hexec]
      exact congrArg Prod.fst hinherit

end Groups

theorem Tree.exists_of_unplaced_group {t : Tree} {elements : List Tree}
    (h : t.unplaced = (group elements).program) :
    ∃ n span span' cs, 6 ≤ n ∧ cs.map unplaced = elements ∧
      (t.numberFrom 0).1.children.map wrapped =
        [.node n .setLiteral span [.node (n + 1) .testListComp span' (numberFromIn (n + 2) cs).1]] := by
  obtain ⟨s, hs, hchildren⟩ := exists_of_unplaced_program (u := group elements) rfl h
  obtain ⟨q, hq, -, hwrapped⟩ := exists_of_unplaced_enclosed (by decide) rfl hs 6
  obtain ⟨span, cs, rfl, hcs⟩ := exists_of_unplaced_node hq
  obtain ⟨c, rfl, hc⟩ := map_eq_singleton_iff.1 hcs
  obtain ⟨span', cs, rfl, helements⟩ := exists_of_unplaced_node hc
  refine ⟨6 + Rule.rungs.length, span, span', cs, Nat.le_add_right 6 _, helements, ?_⟩
  rw [hchildren, hwrapped]
  rfl

/-- A group of expressions each of which compiles for a target compiles for it. What is written of it
is made of what is written of the expressions alone: an array if there are several, and the only one in
parentheses. -/
theorem compile_groupOf {target : Target} (htarget : target ∈ Target.all) {options : Options}
    (x : Expression) (xs : List Expression)
    (hlength : options.exceeded (groupOf ((x :: xs).map Expression.text)).length = none)
    (hcompiles : ∀ y ∈ x :: xs, (compile target options y.text).isOk) :
    ∃ texts imports, List.Forall₂ (Expression.Writes · target options ·) (x :: xs) texts ∧
      compile target options (groupOf ((x :: xs).map Expression.text)) =
        .ok ⟨target.groupText texts, imports⟩ := by
  obtain ⟨tree, hparse, htree⟩ := parse_group x xs
  obtain ⟨n, span, span', cs, hn, hcs, hchildren⟩ := exists_of_unplaced_group htree
  obtain ⟨texts, hwrites, hstand⟩ := exists_texts htarget
    (rfl : (options.source (groupOf ((x :: xs).map Expression.text))).names = _) hcompiles hcs (n := n + 2) (by omega)
  obtain ⟨s, hs, -, hmem, -⟩ := exists_of_map_wrapped hparse hchildren
  have hgroup := mem_nodes_trans hmem (wrapped_mem_nodes (isNode_of_mem_nodes hmem))
  rw [hs] at hgroup
  obtain ⟨k, hexec⟩ :=
    exec_render_group ((formed_of_parse hparse).of_mem_nodes hgroup).distinct hstand
  have hcompile := compile_of_wrapped htarget hparse hlength hchildren hexec fun _ =>
    typed_of_wrapped hparse hchildren hexec
  rw [Except.map, Target.trimmed_groupText htarget] at hcompile
  exact ⟨texts, _, hwrites, hcompile⟩

/-- Two numbers make an array. -/
theorem compile_groupOf_numbers :
    ∃ x y : Expression, x.text = "1" ∧ y.text = "2" ∧ Target.java ∈ Target.all ∧
      (∀ z ∈ [x, y], (compile .java {} z.text).isOk) ∧
      ∃ texts imports, List.Forall₂ (Expression.Writes · .java {} ·) [x, y] texts ∧
        compile .java {} (groupOf ["1", "2"]) = .ok ⟨Target.java.groupText texts, imports⟩ := by
  have hnumber : (⟨.rule .atom, [.terminal .decNumber], some .integerLiteral⟩ : Production) ∈
      (Category.rule .atom).productions := by decide
  have hread : ∀ text ∈ ["1", "2"], (parse text).toOption.isSome ∧ leadingBlanks text = 0 ∧
      significant 0 (tokens text) =
        [⟨.decNumber, text, ⟨0, 1⟩⟩] ++ [⟨.newline, "\n", ⟨text.length, 2⟩⟩] ∧
      (compile .java {} text).isOk := by decide +kernel
  have hexpression : ∀ text ∈ ["1", "2"], ∃ x : Expression, x.text = text := by
    intro text htext
    obtain ⟨hparse, hstart, htokens, -⟩ := hread text htext
    obtain ⟨root, hroot⟩ := Option.isSome_iff_exists.1 hparse
    have hatom := (Derives.terminal ⟨.decNumber, text, ⟨0, 1⟩⟩ .nil).of_production
      (Production.mem_productions hnumber) nofun nofun
    exact ⟨⟨text, root, _, _, _, eq_ok_of_mem_toOption hroot, htokens, hstart, rfl,
      hatom.test_of_atom⟩, rfl⟩
  obtain ⟨x, hx⟩ := hexpression "1" (by decide)
  obtain ⟨y, hy⟩ := hexpression "2" (by decide)
  have hcompiles : ∀ z ∈ [x, y], (compile .java {} z.text).isOk := by
    refine List.forall_mem_cons.2 ⟨?_, List.forall_mem_singleton.2 ?_⟩
    · rw [hx]
      exact (hread "1" (by decide)).2.2.2
    · rw [hy]
      exact (hread "2" (by decide)).2.2.2
  have hgroup := compile_groupOf List.mem_cons_self x [y] rfl hcompiles
  rw [List.map_cons, List.map_singleton, hx, hy] at hgroup
  exact ⟨x, y, hx, hy, List.mem_cons_self, hcompiles, hgroup⟩

/-- A tuple of one element is written as the element in parentheses, and not as an array of it. -/
theorem compile_tuple_of_one_differs :
    compile .python {} "1" = .ok ⟨"1", ""⟩ ∧ compile .python {} (groupOf ["1"]) = .ok ⟨"(1)", ""⟩ ∧
      Target.python.writeArray ["1"] = "[1]" := by
  decide +kernel

end QueryScribe
