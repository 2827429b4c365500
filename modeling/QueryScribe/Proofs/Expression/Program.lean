import QueryScribe.Proofs.Expression.Rendering

/-!
# Programs of one plain expression

A program whose nodes are plain is one statement around one plain expression (`Tree.exists_statement`). It
compiles for every target that has texts for its nodes, and the code is the text of what the program says
(`compile_of_plain`).
-/

namespace QueryScribe

open List

open Renderer
open Render (Ends)

/-! ## The statement of a program -/

namespace Tree

variable {t c s : Tree} {i k : Nat} {span sp : Span}

theorem inline_of_follows (hfollows : t.Follows) (hplain : ∀ s ∈ t.nodes, s.isPlain)
    (ht : t.rule?.any Rule.isLine = false) : ∀ s ∈ t.nodes, s.rule?.any Rule.isLine = false := by
  induction t using induction with
  | leaf => exact nofun
  | node id rule span cs ih =>
    have hself := self_mem_nodes (t := node id rule span cs) rfl
    have hrules : rule.outlines.all (·.all (Piece.leaves true (!·.isLine))) := by
      clear ih hself hfollows hplain
      cases rule
      case fileInput | stmt | simpleStmt => cases ht
      all_goals decide
    intro s hs
    rcases mem_nodes_node.1 hs with rfl | ⟨c, hc, hs⟩
    · exact ht
    · refine ih c hc (fun u hu => hfollows u (mem_nodes_node.2 (.inr ⟨c, hc, hu⟩)))
        (fun u hu => hplain u (mem_nodes_node.2 (.inr ⟨c, hc, hu⟩))) ?_ s hs
      have hamong := (hfollows _ hself).among (isFormed_of_isPlain (hplain _ hself)) hrules hc
      cases c with
      | leaf => rfl
      | node => simpa [face, Face.among, rule?] using hamong

/-- The statement around a small statement. -/
def statement (i k : Nat) (span sp : Span) (s : Tree) : Tree :=
  node i .stmt span [node k .simpleStmt sp [s]]

/-- A plain program is one statement around one expression. -/
theorem exists_statement (hfollows : t.Follows) (hrule : t.rule? = some .fileInput)
    (h : ∀ s ∈ t.nodes, s.isPlain) :
    ∃ i k span sp s, t.children = [statement i k span sp s] ∧ s.rule? = some .smallStmt ∧ s.Plain := by
  -- What holds of the tree holds of its nodes.
  have hbelow : ∀ u ∈ t.nodes, u.Follows ∧ ∀ s ∈ u.nodes, s.isPlain := fun u hu =>
    ⟨fun s hs => hfollows s (mem_nodes_trans hu hs), fun s hs => h s (mem_nodes_trans hu hs)⟩
  have hmem : ∀ u ∈ t.nodes, ∀ c ∈ u.children, c.isNode → c ∈ t.nodes := fun u hu c hc hnode =>
    mem_nodes_trans hu (mem_nodes_of_mem_children hc (self_mem_nodes hnode))
  obtain ⟨i₀, sp₀, cs, rfl⟩ := exists_of_rule? hrule
  have hroot := self_mem_nodes (t := node i₀ .fileInput sp₀ cs) rfl
  obtain ⟨c, rfl⟩ : ∃ c, cs = [c] := by
    refine length_eq_one_iff.1 ?_
    simpa [isPlain] using h _ hroot
  have hamong : c.face.among false (· == .stmt) :=
    (hfollows _ hroot).among rfl (by decide) (.head _)
  have hstmt := rule?_of_among hamong
  have hc := hmem _ hroot c (.head _) (isNode_of_rule? hstmt)
  obtain ⟨i, span, cs, rfl⟩ := exists_of_rule? hstmt
  obtain ⟨d, rfl, hd⟩ : ∃ d, cs = [d] ∧ d.isVisited := by
    cases (hfollows _ hc).form rfl with
    | wrapper _ hd => exact ⟨_, rfl, hd⟩
    | refused hno | literal hno | empty hno | collection hno | logical hno | operation hno => cases hno
    | qualified hno | items hno => rcases hno with hno | hno <;> cases hno
  have hdmem := hmem _ hc d (.head _) (isNode_of_isVisited hd)
  have hline : d.rule? = some .simpleStmt := by
    have hamong : d.face.among false fun r => r == .simpleStmt || r == .compoundStmt :=
      (hfollows _ hc).among rfl (by decide) (.head _)
    cases d with
    | leaf => cases hamong
    | node _ rule _ _ =>
      rcases Bool.or_eq_true_iff.1 hamong with hrule | hrule
      · exact congrArg some (beq_iff_eq.1 hrule)
      · have hplain := h _ hdmem
        rw [beq_iff_eq.1 hrule] at hplain
        cases hplain
  obtain ⟨k, sp, ds, rfl⟩ := exists_of_rule? hline
  obtain ⟨s, rfl⟩ : ∃ s, ds = [s] := by
    refine length_eq_one_iff.1 ?_
    simpa [isPlain] using h _ hdmem
  have hamong : s.face.among false (· == .smallStmt) :=
    (hfollows _ hdmem).among rfl (by decide) (.head _)
  have hsmall := rule?_of_among hamong
  have hs := hbelow s (hmem _ hdmem s (.head _) (isNode_of_rule? hsmall))
  exact ⟨i, k, span, sp, s, rfl, hsmall, hs.1, hs.2, inline_of_follows hs.1 hs.2 (by rw [hsmall]; rfl)⟩

theorem isVisited_of_smallStmt (h : s.rule? = some .smallStmt) : s.isVisited := by
  cases s with
  | leaf => cases h
  | node => exact Option.some.inj h ▸ rfl

theorem bare_of_children (hrule : t.rule? = some .fileInput) (hchildren : t.children = [c]) :
    t.bare = node 0 .fileInput ⟨0, 0⟩ [c.bare] := by
  obtain ⟨i₀, sp₀, cs, rfl⟩ := exists_of_rule? hrule
  obtain rfl : cs = [c] := hchildren
  rfl

/-- A source that is one plain expression has one statement, which holds the expression. -/
theorem exists_statement_of_parse {source : String} (hparse : parse source = .ok t)
    (hplain : ∀ s ∈ t.nodes, s.isPlain) : ∃ i k span sp s,
      t.children = [statement i k span sp s] ∧ s.rule? = some .smallStmt ∧ s.Plain ∧
        t.expr = s.expr ∧ ∀ u ∈ s.nodes, u ∈ t.nodes := by
  have hrule := rule?_of_parse hparse
  obtain ⟨i, k, span, sp, s, hchildren, hsmall, hs⟩ :=
    exists_statement (follows_of_parse hparse) hrule hplain
  refine ⟨i, k, span, sp, s, hchildren, hsmall, hs, ?_, fun u hu => ?_⟩
  · obtain ⟨i₀, sp₀, cs, rfl⟩ := exists_of_rule? hrule
    obtain rfl : cs = [statement i k span sp s] := hchildren
    rfl
  · exact mem_nodes_of_mem_children (hchildren ▸ List.mem_cons_self)
      (mem_nodes_of_mem_children List.mem_cons_self (mem_nodes_of_mem_children List.mem_cons_self hu))

/-! ## Numbers and places -/

theorem spelling_bare (op : Tree) : op.bare.spelling = op.spelling := by
  cases op with
  | leaf => rfl
  | node i rule span cs =>
    have htexts : ((cs.map bare).filterMap token?).map (·.text) = (cs.filterMap token?).map (·.text) := by
      rw [filterMap_map, map_filterMap, map_filterMap]
      refine filterMap_congr fun c _ => ?_
      cases c <;> rfl
    rw [bare_node]
    exact congrArg String.join htexts

theorem operations_bare (e : Expr) (cs : List Tree) (es : List Expr) :
    e.operations (cs.map bare) es = e.operations cs es := by
  fun_induction Expr.operations e cs es with
  | case1 a i op c cs e b es ih => exact ih
  | case2 es e cs hno =>
    rcases cs with _ | ⟨_ | _, _ | _⟩
    all_goals rcases es with _ | ⟨_, _ | _⟩
    all_goals first | rfl | exact (hno _ _ _ _ _ _ _ rfl rfl).elim

theorem exprOf_bare (rule : Rule) (cs : List Tree) (es : List Expr) :
    rule.exprOf (cs.map bare) es = rule.exprOf cs es := by
  cases rule
  case comparison =>
    rw [Rule.exprOf, Rule.exprOf, ← map_tail, everySecond_map, map_map]
    simp only [Function.comp_def, spelling_bare]
  case expr | xorExpr | andExpr | shiftExpr | arithExpr | term =>
    rw [Rule.exprOf, Rule.exprOf, ← map_tail, operations_bare]
  case integerLiteral | hexLiteral | octLiteral | binLiteral | floatLiteral | imagLiteral
      | booleanLiteral | noneLiteral =>
    rcases cs with _ | ⟨_ | _, _ | _⟩ <;> rfl
  case factor =>
    rcases cs with _ | ⟨_ | _, _ | ⟨_, _ | _⟩⟩
    case cons.leaf.cons.nil => rcases es with _ | ⟨_, _ | ⟨_, _ | _⟩⟩ <;> rfl
    all_goals rfl
  all_goals rfl

mutual

theorem expr_bare : (t : Tree) → t.bare.expr = t.expr
  | leaf _ _ => rfl
  | node _ rule _ cs => by rw [bare, expr, expr, exprsIn_bareIn cs, bareIn_eq_map, exprOf_bare]

theorem exprsIn_bareIn : (ts : List Tree) → exprsIn (bareIn ts) = exprsIn ts
  | [] => rfl
  | t :: ts => by rw [bareIn, exprsIn, exprsIn, expr_bare t, exprsIn_bareIn ts]

end

end Tree

/-! ## The text of a program -/

section Program

variable {target : Target} {t s : Tree} {i k : Nat} {span sp : Span} {code : String} (text : Source)
  (b : Bool)

theorem writtenBy_line (hvisited : s.isVisited) (hs : s.WrittenBy code (render target text b s)) :
    (Tree.node k .simpleStmt sp [s]).WrittenBy (code ++ target.endOfStatement)
      (render target text b (.node k .simpleStmt sp [s])) := by
  intro j
  have hsubtrees : (Tree.node k .simpleStmt sp [s]).subtrees = [s] :=
    filter_eq_self.2 (forall_mem_singleton.2 (Tree.isNode_of_isVisited hvisited))
  rw [render_eq_step]
  change Ends _ _ ((below target text _).statements b _) _ _
  have hone : ∀ c ∈ [s], c.WrittenBy (code ++ target.endOfStatement) (do
      return (← (below target text (.node k .simpleStmt sp [s])).visit b c) ++
        (below target text (.node k .simpleStmt sp [s])).target.endOfStatement) := by
    intro c hc j
    rw [visit_below b hc]
    obtain rfl := mem_singleton.1 hc
    refine .bind (hs j) fun out _ _ hout => .pure trivial ⟨?_, hout.2⟩
    rw [hout.1, below, target_within]
  rw [statements, hsubtrees]
  refine .bind (.mapM_written hone j) fun texts k₁ _ htexts => ?_
  rw [htexts.1, map_singleton, String.intercalate_singleton]
  exact .typedFrom (htexts.2 s (.head _))

/-- A program of one statement is written as the statement and both ends. -/
theorem writtenBy_program (hchildren : t.children = [.statement i k span sp s])
    (hrule : t.rule? = some .fileInput) (hvisited : s.isVisited)
    (hs : s.WrittenBy code (render target text b s)) :
    t.WrittenBy (code ++ target.endOfStatement ++ target.endOfProgram) (render target text b t) := by
  intro j
  have hsubtrees : t.subtrees = [.statement i k span sp s] := by
    rw [Tree.subtrees, hchildren]
    rfl
  have hprogram : render target text b t = (below target text t).program b t := by
    rw [render_eq_step]
    obtain ⟨i₀, sp₀, cs, rfl⟩ := Tree.exists_of_rule? hrule
    rfl
  -- The statement passes through to its line.
  have hstatement : (Tree.statement i k span sp s).WrittenBy (code ++ target.endOfStatement)
      (render target text b (.statement i k span sp s)) := by
    intro j
    rw [render_eq_step]
    change Ends _ _ ((below target text _).ofRule b (.node i .stmt span _) .stmt) _ _
    rw [ofRule_of_isWrapper rfl rfl, collapse]
    dsimp only [Tree.children]
    rw [visit_below b (.head _)]
    refine .bind (writtenBy_line text b hvisited hs j) fun out _ _ hout => ?_
    rw [← hout.1]
    exact .typedFrom hout.2
  have hvisit : ∀ c ∈ [Tree.statement i k span sp s], c.WrittenBy (code ++ target.endOfStatement)
      ((below target text t).visit b c) := by
    intro c hc
    rw [visit_below b (hchildren ▸ hc), mem_singleton.1 hc]
    exact hstatement
  rw [hprogram, program, hsubtrees]
  refine .bind (.mapM_written hvisit j) fun texts k₁ _ htexts => ?_
  rw [htexts.1, map_singleton, String.intercalate_singleton, below, target_within]
  exact .typedAs .undefined

end Program

/-- A program of one plain expression compiles for every target that has texts for its nodes. -/
theorem compile_of_plain {target : Target} {options : Options} {source : String} {t : Tree}
    (hparse : parse source = .ok t) (hplain : ∀ s ∈ t.nodes, s.isPlain)
    (hwritable : ∀ s ∈ t.nodes, s.isWritable target)
    (hlength : options.exceeded source.length = none) :
    ∃ output, compile target options source = .ok output ∧
      output.code = trimmed (t.expr.text target ++ target.endOfStatement ++ target.endOfProgram) := by
  obtain ⟨i, k, span, sp, s, hchildren, hsmall, hs, hexpr, hbelow⟩ :=
    Tree.exists_statement_of_parse hparse hplain
  have hvisited := Tree.isVisited_of_smallStmt hsmall
  have hwritten := writtenBy_render (options.source source) hs (fun u hu => hwritable u (hbelow u hu))
    hvisited options.idiomatic
  obtain ⟨code, journal, hexec, hcode, -⟩ := (writtenBy_program (options.source source) options.idiomatic
    hchildren (rule?_of_parse hparse) hvisited hwritten {}).exists_ok
  refine ⟨⟨trimmed code, journal.notes.usage.render target.imports⟩, ?_, ?_⟩
  · rw [compile_of_parse hlength hparse, hexec]
    rfl
  · rw [hexpr, ← hcode]

end QueryScribe
