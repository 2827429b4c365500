import QueryScribe.Proofs.Expression.Chains
import QueryScribe.Proofs.Expression.Program

/-!
# Trees with each conjunct on its own

The expression in which each conjunct of the text stands on its own is what another plain tree says, whose
comparisons have one operator each (`Tree.Plain.regrouped_cases`). It is built along the tree: operands of
conjunctions become as many operands as they have conjuncts, and all else keeps its place.
-/

namespace QueryScribe

open List

namespace Tree

variable {i k : Nat} {rule : Rule} {span sp : Span} {cs us : List Tree} {a b c op t u : Tree} {token : Token}

/-! ## What follows the grammar -/

theorem FollowsProduction.of_faces (h : (node i rule span cs).FollowsProduction)
    (hfaces : us.map face = cs.map face) : (node k rule sp us).FollowsProduction := by
  obtain ⟨p, hp, hnode, hspells⟩ := h
  refine ⟨p, hp, hnode, ?_⟩
  change Spells Repeats _ (us.map face)
  rw [hfaces]
  exact hspells

theorem face_of_rule? (h : t.rule? = some rule) : t.face = .rule rule := by
  cases t with
  | leaf => cases h
  | node => exact congrArg Face.rule (Option.some.inj h)

theorem map_face_of_rule (h : ∀ u ∈ us, u.rule? = some rule) : us.map face = us.map fun _ => .rule rule :=
  map_congr_left fun u hu => face_of_rule? (h u hu)

theorem followsProduction_andTest (hne : us ≠ []) (h : ∀ u ∈ us, u.rule? = some .notTest) :
    (node i .andTest span us).FollowsProduction := by
  have hone : (⟨.rule .andTest, [.category (.rule .notTest)], some .andTest⟩ : Production) ∈
      (Category.rule .andTest).productions := by decide
  have hmore : (⟨.rule .andTest, [.category (.rule .notTest), .category (.run .andTests)],
      some .andTest⟩ : Production) ∈ (Category.rule .andTest).productions := by decide
  obtain ⟨u, rest, rfl⟩ := exists_cons_of_ne_nil hne
  cases rest with
  | nil =>
    refine ⟨_, Production.mem_productions hone, rfl, ?_⟩
    change Spells Repeats [.node .notTest] ([u].map face)
    rw [map_face_of_rule h]
    exact .node (by decide) .nil
  | cons u' rest =>
    refine ⟨_, Production.mem_productions hmore, rfl, ?_⟩
    change Spells Repeats [.node .notTest, .run .andTests] ((u :: u' :: rest).map face)
    rw [map_face_of_rule h, map_cons, ← append_nil (List.map _ (u' :: rest))]
    refine .node (by decide) (.run ?_ .nil)
    -- Each further operand is a group of the run.
    refine ⟨(u' :: rest).map fun _ => [.rule .notTest], cons_ne_nil _ _, ?_, fun group hgroup => ?_⟩
    · rw [← flatMap_def]
      exact map_eq_flatMap
    · obtain ⟨_, -, rfl⟩ := mem_map.1 hgroup
      exact ⟨[.terminal .andWord, .category (.rule .notTest)], by decide, .node (by decide) .nil⟩

theorem followsProduction_comparison (ha : a.rule? = some .expr) (hop : op.rule? = some .compOp)
    (hb : b.rule? = some .expr) : (node i .comparison span [a, op, b]).FollowsProduction := by
  have hproduction : (⟨.rule .comparison, [.category (.rule .expr), .category (.run .comparisons)],
      some .comparison⟩ : Production) ∈ (Category.rule .comparison).productions := by decide
  have hfaces : [a, op, b].map face = [.rule .expr, .rule .compOp, .rule .expr] := by
    simp [face_of_rule? ha, face_of_rule? hop, face_of_rule? hb]
  have hrun : Repeats .comparisons [.rule .compOp, .rule .expr] := by
    refine ⟨[[.rule .compOp, .rule .expr]], nofun, rfl, fun group hgroup => ?_⟩
    rw [mem_singleton.1 hgroup]
    exact ⟨[.category (.rule .compOp), .category (.rule .expr)], by decide,
      .node (by decide) (.node (by decide) .nil)⟩
  refine ⟨_, Production.mem_productions hproduction, rfl, ?_⟩
  change Spells Repeats [.node .expr, .run .comparisons] ([a, op, b].map face)
  rw [hfaces]
  exact .node (by decide) (.run hrun .nil)

/-! ## Plain trees with each conjunct on its own -/

/-- A token, or a plain tree whose comparisons have one operator each. -/
structure Unchained (t : Tree) : Prop where
  plain : t.isNode = true → t.Plain
  linked : t.Linked

theorem Unchained.node (hfollows : (node i rule span us).FollowsProduction)
    (hplain : (Tree.node i rule span us).isPlain) (hline : rule.isLine = false)
    (hlength : rule = .comparison → us.length ≤ 3) (h : ∀ u ∈ us, u.Unchained) :
    (Tree.node i rule span us).Unchained := by
  have hbelow : ∀ s ∈ (Tree.node i rule span us).nodes, s = Tree.node i rule span us ∨
      ∃ u ∈ us, s ∈ u.nodes ∧ u.Plain ∧ u.Linked := by
    intro s hs
    rcases mem_nodes_node.1 hs with rfl | ⟨u, hu, hs⟩
    · exact .inl rfl
    · have hnode : u.isNode := by
        cases u with
        | leaf => cases hs
        | node => rfl
      exact .inr ⟨u, hu, hs, (h u hu).plain hnode, (h u hu).linked⟩
  refine ⟨fun _ => ⟨fun s hs => ?_, fun s hs => ?_, fun s hs => ?_⟩, fun s hs hof => ?_⟩
  all_goals rcases hbelow s hs with rfl | ⟨u, hu, hs, hplain', hlinked⟩
  · exact hfollows
  · exact hplain'.follows s hs
  · exact hplain
  · exact hplain'.plain s hs
  · exact hline
  · exact hplain'.inline s hs
  · exact hlength (rule_of_isOf hof)
  · exact hlinked s hs hof

theorem unchained_leaf : (leaf i token).Unchained := ⟨nofun, nofun⟩

theorem FollowsProduction.comparison (h : (node i .comparison span cs).FollowsProduction) :
    ∃ a rest, cs = a :: rest ∧ a.rule? = some .expr ∧
      Alternates (·.rule? = some .compOp) (·.rule? = some .expr) rest := by
  obtain ⟨pieces, hpieces, hspells⟩ := h.exists_outline rfl
  simp only [Rule.outlines, mem_cons, not_mem_nil, or_false] at hpieces
  rcases hpieces with rfl | rfl
  · obtain ⟨a, rest, rfl, ha, hrest⟩ := hspells.tree_of_rule (by decide)
    refine ⟨a, rest, rfl, ha, ?_⟩
    have hrun : Run.comparisons.alternates (Piece.single false (· == .compOp))
        (Piece.single false (· == .expr)) := by decide
    exact (hrest.tree_run.alternates hrun).1.of_map (fun t ht => rule?_of_among ht)
      fun t ht => rule?_of_among ht
  · obtain ⟨a, rest, rfl, ha, hrest⟩ := hspells.tree_of_rule (by decide)
    rw [hrest.tree_nil]
    exact ⟨a, [], rfl, ha, .nil⟩

/-- A tree in the place of another one, which says what that says with each conjunct on its own. Tokens and
operators of comparisons are left as they are. -/
structure Regroups (t u : Tree) : Prop where
  unchained : u.Unchained
  face : u.face = t.face
  expr : u.expr = t.expr.unchained
  length : t.rule? = some .testListComp → u.children.length = t.children.length
  kept : t.isNode = false ∨ t.rule? = some .compOp → u = t

theorem rule?_of_face (h : u.face = t.face) : u.rule? = t.rule? := by
  cases t <;> cases u <;> cases h <;> rfl

theorem regroups_leaf : (leaf i token).Regroups (leaf i token) :=
  ⟨unchained_leaf, rfl, rfl, nofun, fun _ => rfl⟩

variable {f : Tree → Tree}

theorem unchained_operations (e : Expr) (hcs : Alternates (·.isNode = false) (·.isVisited) cs)
    (hf : ∀ c ∈ cs, c.Regroups (f c)) : e.unchained.operations (cs.map f) ((cs.map expr).map Expr.unchained) =
      (e.operations cs (cs.map expr)).unchained := by
  induction hcs generalizing e with
  | nil => rfl
  | @cons op operand rest hop _ _ ih =>
    cases op with
    | node => cases hop
    | leaf id token =>
      rw [map_cons, (hf _ (.head _)).kept (.inl rfl)]
      exact ih (.operation token.text e operand.expr) fun c hc => hf c (by simp [hc])

/-- What a node says with each conjunct on its own, if each child is replaced by one that says so. -/
theorem Plain.expr_map (h : (node i rule span cs).Plain) (hand : rule ≠ .andTest) (hnot : rule ≠ .notTest)
    (hcomparison : rule ≠ .comparison) (hf : ∀ c ∈ cs, c.Regroups (f c)) :
    (node i rule span (cs.map f)).expr = (node i rule span cs).expr.unchained := by
  have hexprs : (cs.map f).map expr = (cs.map expr).map Expr.unchained := by
    rw [map_map, map_map]
    exact map_congr_left fun c hc => (hf c hc).expr
  rw [expr_node, expr_node, hexprs]
  have hkept : ∀ c ∈ cs, c.isNode = false → f c = c := fun c hc hleaf => (hf c hc).kept (.inl hleaf)
  cases rule
  case andTest => exact absurd rfl hand
  case notTest => exact absurd rfl hnot
  case comparison => exact absurd rfl hcomparison
  case testListComp => exact congrArg Expr.array (Expr.unchainedIn_eq_map _).symm
  case dictOrSet =>
    have hparts : ∀ e ∈ cs, e.expr.unchained.keys = e.expr.keys.map Expr.unchained ∧
        e.expr.unchained.values = e.expr.values.map Expr.unchained := by
      intro e he
      obtain ⟨j, s, key, value, rfl, -⟩ := h.entries e he
      exact ⟨rfl, rfl⟩
    change _ = Expr.document (Expr.unchainedIn _) (Expr.unchainedIn _)
    simp only [Rule.exprOf, Expr.unchainedIn_eq_map, flatMap_map, map_flatMap]
    exact congr (congrArg _ (flatMap_congr fun e he => (hparts e he).1))
      (flatMap_congr fun e he => (hparts e he).2)
  case setLiteral =>
    cases h.plainForm rfl with
    | parenthesized => rfl
    | wrapper hno | operation hno => cases hno
    | literal hno => cases hno
  case orTest =>
    rcases cs with _ | ⟨_, _ | ⟨_, cs⟩⟩
    · rfl
    · rfl
    · exact congrArg Expr.disjunction (Expr.unchainedIn_eq_map (_ :: _ :: _)).symm
  case keyValue | power => rcases cs with _ | ⟨_, _ | ⟨_, _ | ⟨_, _ | _⟩⟩⟩ <;> rfl
  case factor =>
    cases h.plainForm rfl with
    | @wrapper _ c =>
      have hone : ∀ (u : Tree) (e : Expr), Rule.factor.exprOf [u] [e] = e := fun u e => by cases u <;> rfl
      exact (hone (f c) c.expr.unchained).trans (congrArg Expr.unchained (hone c c.expr)).symm
    | sign =>
      rw [map_cons, hkept _ (.head _) rfl]
      rfl
    | literal hno => cases hno
    | operation hno => cases hno
  case expr | xorExpr | andExpr | shiftExpr | arithExpr | term =>
    cases h.plainForm rfl with
    | wrapper => rfl
    | operation _ _ hcs => exact unchained_operations _ hcs fun c hc => hf c (.tail _ hc)
    | literal hno => cases hno
  case integerLiteral | hexLiteral | octLiteral | binLiteral | floatLiteral | imagLiteral
      | booleanLiteral | noneLiteral =>
    cases h.plainForm rfl with
    | literal =>
      rw [map_singleton, hkept _ (.head _) rfl]
      rfl
    | wrapper hno | operation hno => cases hno
  all_goals cases cs <;> rfl

/-- A node stays plain if each child is replaced by one in its place. -/
theorem Plain.regroups_map (h : (node i rule span cs).Plain) (hand : rule ≠ .andTest) (hnot : rule ≠ .notTest)
    (hcomparison : rule ≠ .comparison) (hf : ∀ c ∈ cs, c.Regroups (f c)) :
    (node i rule span cs).Regroups (node i rule span (cs.map f)) := by
  have hfollows := h.follows _ (self_mem_nodes rfl)
  have hplain := h.plain _ (self_mem_nodes rfl)
  have hfaces : (cs.map f).map face = cs.map face := by
    rw [map_map]
    exact map_congr_left fun c hc => (hf c hc).face
  have hplain' : (node i rule span (cs.map f)).isPlain := by
    cases rule
    case setLiteral =>
      cases h.plainForm rfl with
      | parenthesized =>
        refine any_eq_true.2 ⟨_, .head _, ?_⟩
        rw [(hf _ (.head _)).length rfl]
        rfl
      | wrapper hno | operation hno => cases hno
      | literal hno => cases hno
    case dictOrSet =>
      refine all_eq_true.2 (forall_mem_map.2 fun c hc => ?_)
      rw [isOf, rule?_of_face (hf c hc).face]
      exact all_eq_true.1 hplain c hc
    case fileInput | simpleStmt | testListStar => simpa [isPlain] using hplain
    all_goals exact hplain
  refine ⟨.node (hfollows.of_faces hfaces) hplain' (h.inline _ (self_mem_nodes rfl)) (absurd · hcomparison)
    (forall_mem_map.2 fun c hc => (hf c hc).unchained), rfl, h.expr_map hand hnot hcomparison hf,
    fun _ => length_map f, ?_⟩
  rintro (hleaf | hop)
  · cases hleaf
  · obtain rfl : rule = .compOp := Option.some.inj hop
    have hwords := hfollows.exists_comparison.1
    have hsame : cs.map f = cs :=
      (map_congr_left fun c hc => (hf c hc).kept (.inl (hwords c hc))).trans (map_id cs)
    rw [hsame]

/-- Operands of conjunctions stand in conjunctions and after the word for a negation only, and comparisons
in such operands only. -/
theorem Plain.rule?_ne (h : (node i rule span cs).Plain) (hand : rule ≠ .andTest) (hnot : rule ≠ .notTest)
    (hc : c ∈ cs) : c.rule? ≠ some .notTest ∧ c.rule? ≠ some .comparison := by
  have hrules : rule.outlines.all
      (·.all (Piece.leaves true fun r => r != .notTest && r != .comparison)) := by
    clear h
    cases rule
    case andTest => exact absurd rfl hand
    case notTest => exact absurd rfl hnot
    all_goals decide
  have hamong := (h.follows _ (self_mem_nodes rfl)).among
    (isFormed_of_isPlain (h.plain _ (self_mem_nodes rfl))) hrules hc
  cases c with
  | leaf => exact ⟨nofun, nofun⟩
  | node => simpa [face, Face.among, rule?] using hamong

theorem Plain.rule?_of_andTest (h : (node i .andTest span cs).Plain) (hc : c ∈ cs) :
    c.rule? = some .notTest :=
  rule?_of_among ((h.follows _ (self_mem_nodes rfl)).among rfl (by decide) hc)

theorem Plain.notTest_cases (h : (node i .notTest span cs).Plain) :
    (∃ k token c, cs = [leaf k token, c] ∧ c.rule? = some .notTest) ∨
      ∃ k sp ds, cs = [node k .comparison sp ds] := by
  obtain ⟨pieces, hpieces, hspells⟩ := (h.follows _ (self_mem_nodes rfl)).exists_outline rfl
  simp only [Rule.outlines, mem_cons, not_mem_nil, or_false] at hpieces
  rcases hpieces with rfl | rfl
  · obtain ⟨k, token, rest, rfl, -, -, hrest⟩ := hspells.tree_of_token
    obtain ⟨c, rest, rfl, hc, hrest⟩ := hrest.tree_of_rule (by decide)
    rw [hrest.tree_nil]
    exact .inl ⟨k, token, c, rfl, hc⟩
  · obtain ⟨c, rest, rfl, hc, hrest⟩ := hspells.tree_of_rule (by decide)
    rw [hrest.tree_nil]
    obtain ⟨k, sp, ds, rfl⟩ := exists_of_rule? hc
    exact .inr ⟨k, sp, ds, rfl⟩

end Tree

/-- Whether an expression is the only conjunct of its text. -/
def Expr.isSingle : Expr → Bool
  | conjunction _ | negation _ | comparison _ _ => false
  | _ => true

theorem Expr.conjuncts_of_isSingle {e : Expr} (h : e.isSingle) : e.conjuncts = [e.unchained] := by
  cases e
  case conjunction | negation | comparison => cases h
  all_goals rfl

theorem Expr.isSingle_operations {a : Expr} (h : a.isSingle) (cs : List Tree) (es : List Expr) :
    (a.operations cs es).isSingle := by
  fun_induction operations a cs es with
  | case1 a i op c cs e b es ih => exact ih rfl
  | case2 => exact h

/-- Rules that an operand of a comparison can be of, without a bracket around it: those of no statement
and of no logical operator. -/
def Rule.isOperand : Rule → Bool
  | .stmt | .simpleStmt | .smallStmt | .compoundStmt | .exprStmt | .testListStar | .argument | .test | .orTest
  | .andTest | .notTest | .comparison => false
  | _ => true

namespace Tree

variable {i k : Nat} {rule : Rule} {span sp : Span} {cs : List Tree} {a c d op t : Tree} {token : Token}

/-- An operand of a comparison has one conjunct. -/
theorem Plain.isSingle (h : t.Plain) (hvisited : t.isVisited) (hrule : t.rule?.all Rule.isOperand) :
    t.expr.isSingle := by
  revert hrule
  refine h.form_induction (motive := fun t => t.rule?.all Rule.isOperand → t.expr.isSingle) hvisited ?_
  intro i rule span cs _ hplain hform ih hall
  have hoperand : rule.isOperand := hall
  clear hall
  cases hform with
  | @wrapper _ c hwrapper hc =>
    have hrules : rule.isFormed ∧
        rule.outlines.all (·.all (Piece.leaves true Rule.isOperand)) := by
      clear ih hplain
      cases rule
      all_goals first
        | exact ⟨rfl, by decide⟩
        | exact absurd hwrapper Bool.false_ne_true
        | exact absurd hoperand Bool.false_ne_true
    have hamong := (hplain.follows _ (self_mem_nodes rfl)).among hrules.1 hrules.2 (.head _)
    have hnode := isNode_of_isVisited hc
    rw [expr_wrapper hwrapper hnode]
    refine ih.child c (.head _) hc ?_
    cases c with
    | leaf => cases hc
    | node => exact hamong
  | literal hkind =>
    rw [expr_literal hkind]
    rfl
  | array => rw [expr_array]; rfl
  | document => rw [expr_document]; rfl
  | parenthesized | emptyArray | emptyDocument | sign | power => rfl
  | disjunction | conjunction | negation | comparison => cases hoperand
  | @operation _ c op d cs hoperation _ hcs =>
    rw [expr_operation hoperation]
    cases hcs with
    | cons hop _ _ =>
      cases op with
      | node => cases hop
      | leaf id token =>
        exact Expr.isSingle_operations (a := .operation token.text c.expr d.expr) rfl _ _

variable {f : Tree → Tree}

/-! ## Operands of conjunctions -/

/-- An operand of a conjunction, or a comparison, for which others like it say the conjuncts one by one. -/
def Splits (t : Tree) : Prop :=
  ∃ us, us ≠ [] ∧ (∀ u ∈ us, u.Unchained ∧ u.face = t.face) ∧ us.map expr = t.expr.conjuncts

theorem exists_links (ha : a.rule? = some .expr)
    (h : Alternates (·.rule? = some .compOp) (·.rule? = some .expr) cs) (hne : cs ≠ [])
    (hf : ∀ c ∈ a :: cs, c.Regroups (f c)) :
    ∃ us, us ≠ [] ∧ (∀ u ∈ us, u.Unchained ∧ u.face = .rule .comparison) ∧
      us.map expr = Expr.links ((Renderer.everySecond (a :: cs)).map fun c => c.expr.unchained)
        ((Renderer.everySecond cs).map spelling) := by
  induction h generalizing a with
  | nil => exact absurd rfl hne
  | @cons op d rest hop hd hrest ih =>
    have hfa := hf a (.head _)
    have hfop := hf op (.tail _ (.head _))
    have hfd := hf d (.tail _ (.tail _ (.head _)))
    have hlink : (node 0 .comparison ⟨0, 0⟩ [f a, f op, f d]).Unchained := by
      refine .node ?_ rfl rfl (fun _ => Nat.le_refl 3) ?_
      · exact followsProduction_comparison ((rule?_of_face hfa.face).trans ha)
          ((rule?_of_face hfop.face).trans hop) ((rule?_of_face hfd.face).trans hd)
      · simp [hfa.unchained, hfop.unchained, hfd.unchained]
    have hexpr : (node 0 .comparison ⟨0, 0⟩ [f a, f op, f d]).expr =
        .comparison [a.expr.unchained, d.expr.unchained] [op.spelling] := by
      rw [← hfa.expr, ← hfd.expr, hfop.kept (.inr hop)]
      rfl
    cases hrest with
    | nil => exact ⟨_, cons_ne_nil _ _, forall_mem_singleton.2 ⟨hlink, rfl⟩, congrArg (· :: []) hexpr⟩
    | cons =>
      obtain ⟨us, -, hus, hothers⟩ :=
        ih hd (cons_ne_nil _ _) fun c hc => hf c (.tail _ (.tail _ hc))
      exact ⟨_ :: us, cons_ne_nil _ _, forall_mem_cons.2 ⟨⟨hlink, rfl⟩, hus⟩,
        congr (congrArg List.cons hexpr) hothers⟩

/-- Each link of a comparison stands on its own. -/
theorem Plain.splits_comparison (h : (node k .comparison sp cs).Plain)
    (hf : ∀ c ∈ cs, c.Regroups (f c)) : (node k .comparison sp cs).Splits := by
  have hfollows := h.follows _ (self_mem_nodes rfl)
  obtain ⟨a, rest, rfl, ha, hrest⟩ := hfollows.comparison
  cases rest with
  | nil =>
    have hnode := isNode_of_rule? ha
    have hfa := hf a (.head _)
    have hsingle : a.expr.isSingle :=
      (h.child (.head _) hnode).isSingle (isVisited_of_rule? ha rfl) (by rw [ha]; rfl)
    refine ⟨[node k .comparison sp [f a]], cons_ne_nil _ _, forall_mem_singleton.2 ⟨?_, rfl⟩, ?_⟩
    · refine .node (hfollows.of_faces ?_) rfl rfl (fun _ => by simp) (forall_mem_singleton.2 hfa.unchained)
      rw [map_singleton, map_singleton, hfa.face]
    · rw [map_singleton, expr_wrapper rfl (isNode_of_rule? ((rule?_of_face hfa.face).trans ha)),
        hfa.expr, expr_wrapper rfl hnode, Expr.conjuncts_of_isSingle hsingle]
  | cons op rest =>
    obtain ⟨us, hne, hus, hexpr⟩ := exists_links ha hrest (cons_ne_nil _ _) hf
    refine ⟨us, hne, hus, ?_⟩
    rw [hexpr, expr_comparison, Expr.conjuncts, Expr.unchainedIn_eq_map, map_map]
    rfl

theorem Plain.splits_operand (h : (node i .notTest span [node k .comparison sp cs]).Plain)
    (hsplits : (node k .comparison sp cs).Splits) :
    (node i .notTest span [node k .comparison sp cs]).Splits := by
  obtain ⟨us, hne, hus, hexpr⟩ := hsplits
  refine ⟨us.map (node i .notTest span [·]), fun h => hne (map_eq_nil_iff.1 h),
    forall_mem_map.2 fun u hu => ⟨?_, rfl⟩, ?_⟩
  · refine .node ((h.follows _ (self_mem_nodes rfl)).of_faces ?_) rfl rfl nofun
      (forall_mem_singleton.2 (hus u hu).1)
    rw [map_singleton, map_singleton, (hus u hu).2]
  · rw [map_map, expr_wrapper rfl rfl, ← hexpr]
    exact map_congr_left fun u hu => expr_wrapper rfl (isNode_of_rule? (rule?_of_face (hus u hu).2))

/-- A negation takes hold of the first conjunct. -/
theorem Plain.splits_negation (h : (node i .notTest span [leaf k token, c]).Plain) (hsplits : c.Splits) :
    (node i .notTest span [leaf k token, c]).Splits := by
  obtain ⟨us, hne, hus, hexpr⟩ := hsplits
  obtain ⟨first, rest, rfl⟩ := exists_cons_of_ne_nil hne
  obtain ⟨hfirst, hrest⟩ := forall_mem_cons.1 hus
  have hc : c.face = .rule .notTest := by
    rcases h.notTest_cases with ⟨_, _, _, heq, hc⟩ | ⟨_, _, _, heq⟩
    · cases heq
      exact face_of_rule? hc
    · cases heq
  rw [hc] at hrest
  refine ⟨node i .notTest span [leaf k token, first] :: rest, cons_ne_nil _ _,
    forall_mem_cons.2 ⟨⟨?_, rfl⟩, hrest⟩, ?_⟩
  · refine .node ((h.follows _ (self_mem_nodes rfl)).of_faces ?_) rfl rfl nofun
      (forall_mem_cons.2 ⟨unchained_leaf, forall_mem_singleton.2 hfirst.1⟩)
    simp [hfirst.2]
  · rw [expr_negation, Expr.conjuncts, ← hexpr]
    rfl

/-- A conjunction has the conjuncts of its operands. -/
theorem Plain.regrouped_andTest (h : (node i .andTest span cs).Plain) (hsplits : ∀ c ∈ cs, c.Splits)
    (hne : cs ≠ []) :
    ∃ u, (node i .andTest span cs).Regroups u := by
  have hexpr : (node i .andTest span cs).expr.conjuncts = cs.flatMap (·.expr.conjuncts) := by
    rw [expr_node]
    rcases cs with _ | ⟨_, _ | ⟨_, cs⟩⟩
    · rfl
    · rw [flatMap_singleton]
      rfl
    · rw [← flatMap_map]
      exact Expr.conjunctsIn_eq_flatMap (_ :: _ :: cs.map expr)
  choose! f hne' hus hconjuncts using hsplits
  have hall : ∀ u ∈ cs.flatMap f, u.Unchained ∧ u.rule? = some .notTest := by
    intro u hu
    obtain ⟨c, hc, hu⟩ := mem_flatMap.1 hu
    obtain ⟨hunchained, hface⟩ := hus c hc u hu
    exact ⟨hunchained, (rule?_of_face hface).trans (h.rule?_of_andTest hc)⟩
  obtain ⟨c, rest, rfl⟩ := exists_cons_of_ne_nil hne
  have hnil : (c :: rest).flatMap f ≠ [] := append_ne_nil_of_left_ne_nil (hne' c (.head _)) _
  refine ⟨node i .andTest span ((c :: rest).flatMap f), ?_, rfl, ?_, nofun, nofun⟩
  · exact .node (followsProduction_andTest hnil fun u hu => (hall u hu).2) rfl rfl nofun
      fun u hu => (hall u hu).1
  · rw [expr_node, map_flatMap, flatMap_congr hconjuncts, Expr.unchained, hexpr]
    rfl

/-- A plain tree has one in its place that says what it says with each conjunct on its own. An operand of a
conjunction has one for each conjunct. -/
theorem Plain.regrouped_cases (h : t.Plain) (hnode : t.isNode) :
    (t.rule? = some .notTest → t.Splits) ∧
    (t.rule? ≠ some .notTest → t.rule? ≠ some .comparison → ∃ u, t.Regroups u) := by
  refine h.induction (motive := fun t => (t.rule? = some .notTest → t.Splits) ∧
    (t.rule? ≠ some .notTest → t.rule? ≠ some .comparison → ∃ u, t.Regroups u)) hnode ?_
  intro i rule span cs hplain ih
  -- Children of a node that is neither a conjunction nor an operand of one.
  have hchildren : ∀ {j r s ds}, (node j r s ds).Plain → r ≠ .andTest → r ≠ .notTest →
      (∀ d ∈ ds, d.isNode → d ∈ nodesIn cs) → ∃ f : Tree → Tree, ∀ d ∈ ds, d.Regroups (f d) := by
    intro j r s ds hplain hand hnot hds
    have hall : ∀ d ∈ ds, ∃ u, d.Regroups u := by
      intro d hd
      obtain ⟨hne, hne'⟩ := hplain.rule?_ne hand hnot hd
      cases d with
      | leaf => exact ⟨_, regroups_leaf⟩
      | node => exact (ih _ (hds _ hd rfl)).2 hne hne'
    choose! f hf using hall
    exact ⟨f, hf⟩
  have hbelow : ∀ c ∈ cs, c.isNode → c ∈ nodesIn cs := fun c hc hnode =>
    mem_nodesIn.2 ⟨c, hc, self_mem_nodes hnode⟩
  refine ⟨fun hrule => ?_, fun hnot hcomparison => ?_⟩
  · obtain rfl : rule = .notTest := Option.some.inj hrule
    rcases hplain.notTest_cases with ⟨k, token, c, rfl, hc⟩ | ⟨k, sp, ds, rfl⟩
    · exact hplain.splits_negation ((ih c (hbelow c (.tail _ (.head _)) (isNode_of_rule? hc))).1 hc)
    · have hcompared := hplain.child (.head _) rfl
      obtain ⟨f, hf⟩ := hchildren hcompared nofun nofun fun d hd hnode =>
        mem_nodesIn.2 ⟨_, .head _, mem_nodes_of_mem_children hd (self_mem_nodes hnode)⟩
      exact hplain.splits_operand (hcompared.splits_comparison hf)
  · by_cases hand : rule = .andTest
    · subst hand
      refine hplain.regrouped_andTest (fun c hc => ?_) ?_
      · have hrule := hplain.rule?_of_andTest hc
        exact (ih c (hbelow c hc (isNode_of_rule? hrule))).1 hrule
      · cases hplain.plainForm rfl with
        | wrapper | conjunction => exact cons_ne_nil _ _
        | literal hno => cases hno
        | operation hno => cases hno
    · have hnot : rule ≠ .notTest := fun h => hnot (congrArg some h)
      obtain ⟨f, hf⟩ := hchildren hplain hand hnot hbelow
      exact ⟨_, hplain.regroups_map hand hnot (fun h => hcomparison (congrArg some h)) hf⟩

/-! ## Trees say formed expressions -/

theorem formed_operations {e : Expr} (he : e.Formed)
    (hcs : Alternates (·.isNode = false) (·.isVisited) cs) (h : ∀ c ∈ cs, c.isVisited → c.expr.Formed) :
    (e.operations cs (cs.map expr)).Formed := by
  induction hcs generalizing e with
  | nil => exact he
  | @cons op operand rest hop hoperand _ ih =>
    cases op with
    | node => cases hop
    | leaf id token =>
      exact ih (.operation he (h operand (by simp) hoperand)) fun c hc => h c (by simp [hc])

theorem length_everySecond {A B : Tree → Prop} (h : Alternates A B cs) :
    (Renderer.everySecond (c :: cs)).length = (Renderer.everySecond cs).length + 1 := by
  induction h generalizing c with
  | nil => rfl
  | @cons op d rest _ _ _ ih => exact congrArg (· + 1) (ih (c := d))

theorem formed_comparison (hc : c.isVisited)
    (hcs : Alternates (·.rule? = some .compOp) (·.isVisited) (op :: d :: cs))
    (h : ∀ e ∈ c :: op :: d :: cs, e.isVisited → e.expr.Formed) :
    (node i .comparison span (c :: op :: d :: cs)).expr.Formed := by
  rw [expr_comparison]
  have hoperands : ∀ e ∈ (Renderer.everySecond (c :: op :: d :: cs)).map expr, e.Formed := by
    refine forall_mem_map.2 fun e he => ?_
    obtain ⟨hmem, hvisited⟩ :=
      Renderer.forall_mem_everySecond (B := fun e : Tree => e.isVisited) hc hcs e he
    exact h e hmem hvisited
  cases hcs with
  | cons _ _ hcs =>
    have hlength := length_everySecond (c := d) hcs
    generalize hds : Renderer.everySecond (d :: cs) = ds at hlength
    change ∀ e ∈ (c :: Renderer.everySecond (d :: cs)).map expr, e.Formed at hoperands
    change Expr.Formed (.comparison ((c :: Renderer.everySecond (d :: cs)).map expr)
      ((op :: Renderer.everySecond cs).map spelling))
    rw [hds] at hoperands ⊢
    cases ds with
    | nil => cases hlength
    | cons d ds =>
      refine .comparison ?_ hoperands
      rw [length_map, length_map]
      exact Nat.succ.inj hlength

theorem Plain.formed (h : t.Plain) (hvisited : t.isVisited) : t.expr.Formed := by
  refine h.form_induction (motive := fun t => t.expr.Formed) hvisited fun i rule span cs _ _ hform ih => ?_
  have hchild := ih.child
  cases hform with
  | @wrapper _ c hrule hc =>
    rw [expr_wrapper hrule (isNode_of_isVisited hc)]
    exact hchild c (.head _) hc
  | literal hkind =>
    rw [expr_literal hkind]
    exact .literal
  | parenthesized hc => exact .parenthesized (ih.listed _ (.head _) _ (.head _) hc)
  | emptyArray => exact .array nofun
  | array hcs =>
    rw [expr_array]
    exact .array (forall_mem_map.2 fun c hc => ih.listed _ (.head _) c hc (hcs c hc))
  | emptyDocument => exact .document nofun nofun
  | @document k sp cs hcs =>
    have hentry := ih.entry _ (.head _)
    rw [expr_document]
    refine .document ?_ ?_
    all_goals
      intro e he
      obtain ⟨entry, hentries, he⟩ := mem_flatMap.1 he
      obtain ⟨j, s, key, value, rfl, hkey, hvalue⟩ := hcs entry hentries
      rw [mem_singleton.1 he]
    · exact hentry _ hentries key (.head _) hkey
    · exact hentry _ hentries value (.tail _ (.head _)) hvalue
  | disjunction hcs =>
    rw [expr_disjunction]
    exact .disjunction nofun (forall_mem_map.2 fun e he => hchild e he (hcs e he))
  | conjunction hcs =>
    rw [expr_conjunction]
    exact .conjunction nofun (forall_mem_map.2 fun e he => hchild e he (hcs e he))
  | negation _ hc => exact .negation (hchild _ (.tail _ (.head _)) hc)
  | comparison hc hcs => exact formed_comparison hc hcs hchild
  | operation hrule hc hcs =>
    rw [expr_operation hrule]
    exact formed_operations (hchild _ (.head _) hc) hcs fun c hc => hchild c (.tail _ hc)
  | sign _ hc => exact .sign (hchild _ (.tail _ (.head _)) hc)
  | power _ hc hd =>
    exact .power (hchild _ (.head _) hc) (hchild _ (.tail _ (.tail _ (.head _))) hd)

end Tree

end QueryScribe