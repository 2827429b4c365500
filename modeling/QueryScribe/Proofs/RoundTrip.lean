import QueryScribe.Proofs.Expression.Printed
import QueryScribe.Proofs.Expression.Program
import QueryScribe.Proofs.Printing.Program

/-!
# Compiled expressions read back

A program that is one elementary expression compiles to a text that is read to the same tree, apart from
places (`elementary_expression_reads_back`): the code is the printed statement, and what is printed is
read.
-/

namespace QueryScribe

namespace Tree

variable {i k : Nat} {span sp : Span} {s t : Tree}

/-! ## Statements as they are printed -/

theorem isSet_statement (hs : s.Plain) : (statement i k span sp s).IsSet := by
  intro u hu
  rcases mem_nodes_node.1 hu with rfl | ⟨c, hc, hu⟩
  · rfl
  · rw [List.mem_singleton.1 hc] at hu
    rcases mem_nodes_node.1 hu with rfl | ⟨d, hd, hu⟩
    · rfl
    · rw [List.mem_singleton.1 hd] at hu
      have hplain := hs.of_mem_nodes hu
      cases u with
      | leaf => cases isNode_of_mem_nodes hu
      | node =>
        obtain ⟨setting, hsetting⟩ := hplain.exists_affixes
        exact Option.isSome_iff_exists.2 ⟨setting, hsetting⟩

theorem code_statement : (statement i k span sp s).code = s.code ++ ['\n'] := by
  rw [statement, code_eq "" "" "" rfl, List.map_singleton, code_eq "" "; " "\n" rfl]
  simp

theorem follows_statement (hs : s.Follows) (hrule : s.rule? = some .smallStmt) :
    (statement i k span sp s).Follows := by
  have hface : s.face = .rule .smallStmt := by
    cases s with
    | leaf => cases hrule
    | node => exact congrArg Face.rule (Option.some.inj hrule)
  have hstmt : (⟨.rule .stmt, [.category (.rule .simpleStmt)], some .stmt⟩ : Production) ∈
      (Category.rule .stmt).productions := by decide
  have hline : (⟨.rule .simpleStmt, [.category (.rule .smallStmt), .terminal .newline],
      some .simpleStmt⟩ : Production) ∈ (Category.rule .simpleStmt).productions := by decide
  intro u hu
  rcases mem_nodes_node.1 hu with rfl | ⟨c, hc, hu⟩
  · exact ⟨_, Production.mem_productions hstmt, rfl, .node (by decide) .nil⟩
  · rw [List.mem_singleton.1 hc] at hu
    rcases mem_nodes_node.1 hu with rfl | ⟨d, hd, hu⟩
    · refine ⟨_, Production.mem_productions hline, rfl, ?_⟩
      change Spells Repeats [.node .smallStmt] [s.face]
      rw [hface]
      exact .node (by decide) .nil
    · rw [List.mem_singleton.1 hd] at hu
      exact hs u hu

end Tree

theorem parse_of_linked {s : Tree} (hs : s.Plain) (hlinked : s.Linked) (hrule : s.rule? = some .smallStmt)
    (i k : Nat) (span sp : Span) :
    ∃ t, parse (trimmed (s.expr.text .python)) = .ok t ∧
      t.bare = .node 0 .fileInput ⟨0, 0⟩ [(Tree.statement i k span sp s).bare] := by
  obtain ⟨hcode, hsharp⟩ := hs.echoed hlinked (Tree.isVisited_of_smallStmt hrule)
  have htrim : Text.trim (s.expr.text .python).toList = (s.expr.text .python).toList :=
    Text.trim_of_isSharp (hcode ▸ hsharp)
  refine parse_of_printed (Tree.follows_statement hs.follows hrule) (Tree.isSet_statement hs) rfl ?_
  rw [normalize, trimmed, htrim, String.ofList_toList, htrim, ← hcode]
  exact Tree.code_statement.symm

/-! ## Elementary expressions -/

/-- Whether a node is one of a program that is a single elementary expression: numbers, truth values and
`None`, parentheses around one expression, arrays, documents of entries, and operators, where a
comparison has one operator. -/
def Tree.isElementary : Tree → Bool
  | leaf _ _ => true
  | node _ rule _ cs =>
    match rule with
    | .fileInput | .simpleStmt | .testListStar => cs.length == 1
    | .setLiteral => cs.any (·.children.length == 1)
    | .dictOrSet => cs.all (·.isOf .keyValue)
    | .comparison => cs.length ≤ 3
    | .stmt | .smallStmt | .exprStmt | .test | .orTest | .andTest | .notTest | .compOp | .expr | .xorExpr
    | .andExpr | .shiftExpr | .arithExpr | .term | .factor | .power | .atomExpr | .arrayLiteral
    | .objectLiteral | .testListComp | .keyValue | .integerLiteral | .hexLiteral | .octLiteral
    | .binLiteral | .floatLiteral | .imagLiteral | .booleanLiteral | .noneLiteral => true
    | _ => false

theorem Tree.isPlain_of_isElementary {t : Tree} (h : t.isElementary) :
    t.isPlain ∧ (t.isOf .comparison → t.children.length ≤ 3) := by
  cases t with
  | leaf => exact ⟨rfl, nofun⟩
  | node i rule span cs =>
    cases rule
    case comparison => exact ⟨rfl, fun _ => of_decide_eq_true h⟩
    all_goals exact ⟨h, nofun⟩

theorem Tree.isWritable_python (t : Tree) : t.isWritable .python := by
  unfold isWritable
  split
  · rfl
  · rename_i rule _ _ _ _
    rw [Bool.or_eq_true]
    right
    cases rule.literalType <;> rfl
  · rfl

/-- A source that is one elementary expression compiles, and the code is read to the tree of the source,
apart from places. -/
theorem elementary_expression_reads_back {source : String} {t : Tree} {options : Options}
    (hparse : parse source = .ok t) (helementary : ∀ s ∈ t.nodes, s.isElementary = true)
    (hlength : options.exceeded source.length = none) :
    ∃ output t', compile .python options source = .ok output ∧ parse output.code = .ok t' ∧
      t'.unplaced = t.unplaced := by
  have hplain : ∀ s ∈ t.nodes, s.isPlain = true := fun s hs =>
    (Tree.isPlain_of_isElementary (helementary s hs)).1
  obtain ⟨i, k, span, sp, s, hchildren, hsmall, hs, hexpr, hbelow⟩ :=
    Tree.exists_statement_of_parse hparse hplain
  have hlinked : s.Linked := fun u hu =>
    (Tree.isPlain_of_isElementary (helementary u (hbelow u hu))).2
  obtain ⟨output, hcompile, hcode⟩ :=
    compile_of_plain hparse hplain (fun u _ => u.isWritable_python) hlength
  obtain ⟨t', hparse', hbare⟩ := parse_of_linked hs hlinked hsmall i k span sp
  have htext : output.code = trimmed (s.expr.text .python) := by
    rw [hcode, hexpr]
    simp [Target.python]
  refine ⟨output, t', hcompile, htext ▸ hparse', ?_⟩
  have hsame : t'.bare = t.bare := by
    rw [hbare, Tree.bare_of_children (rule?_of_parse hparse) hchildren]
  rw [Tree.unplaced_of_parse hparse', Tree.unplaced_of_parse hparse, hsame]

/-- An expression with most operators, with blanks and a comment that the code lacks. -/
theorem operators_read_back :
    ∃ t, parse "not(1+0x2*-3 ,)in [4,\x7b5:None\x7d] or ~6**7j  # rest" = .ok t ∧
      (∀ s ∈ t.nodes, s.isElementary = true) ∧
      ∃ output t', compile .python {} "not(1+0x2*-3 ,)in [4,\x7b5:None\x7d] or ~6**7j  # rest" =
        .ok output ∧ parse output.code = .ok t' ∧ t'.unplaced = t.unplaced := by
  have h : ∃ t ∈ (parse "not(1+0x2*-3 ,)in [4,\x7b5:None\x7d] or ~6**7j  # rest").toOption,
      ∀ s ∈ t.nodes, s.isElementary = true := by
    decide +kernel
  obtain ⟨t, ht, helementary⟩ := h
  have hparse := eq_ok_of_mem_toOption ht
  exact ⟨t, hparse, helementary, elementary_expression_reads_back hparse helementary rfl⟩

end QueryScribe
