import QueryScribe.Proofs.Expression.Basic

/-!
# Plain expressions as they are printed

The target whose expressions look like those of the source writes a plain expression as it is printed, if
its comparisons have one operator each (`Tree.Plain.echoed`).
-/

namespace QueryScribe

open List

open Target

/-! ## Operators -/

namespace Target

/-- What stands between the operands of a comparison does not depend on them. -/
theorem compare_eq_append (op a b : String) :
    python.compare op a b = a ++ python.compare op "" "" ++ b := by
  unfold compare
  split
  · rename_i equality _ _ _
    cases equality <;> simp [python, String.append_assoc]
  · rename_i membership _ _
    cases membership <;> simp [python, String.append_assoc]
  · simp [String.append_assoc]

theorem compare_of_mem_comparisons : ∀ kinds ∈ Terminal.comparisons,
    (python.compare (String.join (kinds.map (·.token.text))) "" "").toList =
      " ".toList ++ " ".toList.intercalate (kinds.map (·.token.text.toList)) ++ " ".toList := by
  decide +kernel

theorem toList_operate (op a b : String) : (python.operate op a b).toList =
    a.toList ++ (" ".toList ++ op.toList ++ " ".toList ++ b.toList) := by
  unfold operate
  split
  · rename_i hop
    rw [hop]
    simp [python]
  · simp

end Target

theorem Rule.literal_cases (rule : Rule) (h : rule.literalKinds ≠ []) :
    rule.affixes? = some {} ∧ (∀ kind ∈ rule.literalKinds, kind ∈ Terminal.elementary) ∧
      rule.literalType ≠ .string := by
  cases rule
  all_goals first | exact absurd rfl h | exact ⟨rfl, by decide, nofun⟩

theorem Target.python_literalText {type : ValueType} (h : type ≠ .string) (text : String) :
    python.literalText type text = text := by
  cases type
  all_goals first | rfl | exact absurd rfl h

namespace Tree

/-- All comparisons of a tree have at most one operator. -/
def Linked (t : Tree) : Prop := ∀ s ∈ t.nodes, s.isOf .comparison = true → s.children.length ≤ 3

variable {i k : Nat} {rule : Rule} {span sp : Span} {cs : List Tree} {c d op s t : Tree} {token : Token}

theorem Plain.code_wrapper (h : (node i rule span [c]).Plain) (hrule : rule.isWrapper) :
    (node i rule span [c]).code = c.code := by
  obtain ⟨s, hs⟩ := h.exists_affixes
  have hbare : ∀ s ∈ rule.affixes?, s.opening = [] ∧ s.closing = [] := by
    clear h hs
    cases rule
    all_goals first | decide | cases hrule
  rw [code, printed, hs]
  simp [(hbare s hs).1, (hbare s hs).2, glyphsOf, printedIn, printedAfter, code]

theorem Plain.code_operator (h : op.Plain) (hop : op.rule? = some .compOp) :
    " ".toList ++ op.code ++ " ".toList = (python.compare op.spelling "" "").toList := by
  obtain ⟨k, sp, words, rfl⟩ := exists_of_rule? hop
  obtain ⟨hwords, kinds, hkinds, htexts⟩ := (h.follows _ (self_mem_nodes rfl)).exists_comparison
  have hspelling : (node k .compOp sp words).spelling = String.join (kinds.map (·.token.text)) :=
    congrArg String.join htexts
  rw [hspelling, compare_of_mem_comparisons kinds hkinds, code_eq "" " " "" rfl,
    map_code_of_tokens hwords]
  have hlists := congrArg (List.map String.toList) htexts
  simp only [map_map, Function.comp_def] at hlists
  simp [hlists]

/-- A tree is written for the target as it is printed, and neither starts nor ends with a blank. -/
structure Echoed (t : Tree) : Prop where
  code : t.code = (t.expr.text .python).toList
  sharp : Text.isSharp t.code = true

theorem map_code_of_echoed (h : ∀ c ∈ cs, c.Echoed) :
    cs.map code = (Expr.texts .python (cs.map expr)).map String.toList := by
  rw [Expr.texts_eq_map, map_map, map_map]
  exact map_congr_left fun c hc => (h c hc).code

/-! ## One node -/

theorem echoed_literal (hrule : token.kind ∈ rule.literalKinds) (hlexed : token.Lexed) :
    (node i rule span [leaf k token]).Echoed := by
  obtain ⟨hbare, hkinds, hne⟩ := rule.literal_cases (ne_nil_of_mem hrule)
  have hcode : (node i rule span [leaf k token]).code = token.text.toList := by
    rw [code_eq "" "" "" (by rw [hbare]; rfl)]
    simp
  constructor
  · rw [hcode, expr_literal hrule, Expr.text, python_literalText hne]
  · rw [hcode]
    exact hlexed.isSharp (hkinds _ hrule)

theorem echoed_parenthesized (hc : c.Echoed) :
    (node i .setLiteral span [node k .testListComp sp [c]]).Echoed := by
  have hcode : (node i .setLiteral span [node k .testListComp sp [c]]).code =
      "(".toList ++ (c.code ++ ")".toList) := by
    rw [code_eq "(" "" ")" rfl, map_singleton, intercalate_singleton, code_eq "" ", " "" rfl]
    simp
  constructor
  · rw [hcode, expr_parenthesized, Expr.text, hc.code]
    simp
  · rw [hcode]
    exact Text.isSharp_append rfl rfl _

theorem echoed_array (hcs : ∀ c ∈ cs, c.Echoed) :
    (node i .arrayLiteral span [node k .testListComp sp cs]).Echoed := by
  have hcode : (node i .arrayLiteral span [node k .testListComp sp cs]).code =
      "[".toList ++ (", ".toList.intercalate (cs.map code) ++ "]".toList) := by
    rw [code_eq "[" "" "]" rfl, map_singleton, intercalate_singleton, code_eq "" ", " "" rfl]
    simp
  constructor
  · rw [hcode, expr_array, Expr.text, map_code_of_echoed hcs]
    simp [writeArray, python]
  · rw [hcode]
    exact Text.isSharp_append rfl rfl _

theorem code_entry (h : ∀ d ∈ c.children, d.isVisited → d.Echoed) (hc : c.IsEntry) :
    c.code = ((entryText .python c).1 ++ ": " ++ (entryText .python c).2).toList := by
  obtain ⟨i, sp, key, value, rfl, hkey, hvalue⟩ := hc
  have hkeyCode := (h key (.head _) hkey).code
  have hvalueCode := (h value (.tail _ (.head _)) hvalue).code
  have htext : entryText .python (node i .keyValue sp [key, value]) =
      (key.expr.text .python, value.expr.text .python) := rfl
  rw [code_eq "" ": " "" rfl, htext]
  simp [hkeyCode, hvalueCode]

theorem echoed_document (hcs : ∀ c ∈ cs, c.IsEntry)
    (h : ∀ c ∈ cs, ∀ d ∈ c.children, d.isVisited → d.Echoed) :
    (node i .objectLiteral span [node k .dictOrSet sp cs]).Echoed := by
  have hcode : (node i .objectLiteral span [node k .dictOrSet sp cs]).code =
      "\x7b".toList ++ (", ".toList.intercalate (cs.map code) ++ "\x7d".toList) := by
    rw [code_eq "\x7b" "" "\x7d" rfl, map_singleton, intercalate_singleton,
      code_eq "" ", " "" rfl]
    simp
  have hentries : cs.map code = cs.map fun c =>
      ((entryText .python c).1 ++ ": " ++ (entryText .python c).2).toList :=
    map_congr_left fun c hc => code_entry (h c hc) (hcs c hc)
  constructor
  · rw [hcode, expr_document, Expr.text, zip_texts_entries _ hcs, hentries]
    simp [writeDocument, python, Function.comp_def]
  · rw [hcode]
    exact Text.isSharp_append rfl rfl _

theorem echoed_logical (word : String) (hcs : ∀ e ∈ c :: cs, e.Echoed)
    (hrule : rule.affixes?.map Affixes.texts = some ([], word.toList, []))
    (htext : (node i rule span (c :: cs)).expr.text .python =
      word.intercalate (Expr.texts .python ((c :: cs).map expr))) :
    (node i rule span (c :: cs)).Echoed := by
  have hcode : (node i rule span (c :: cs)).code = word.toList.intercalate ((c :: cs).map code) := by
    rw [code_eq "" word "" hrule]
    simp
  constructor
  · rw [hcode, htext, map_code_of_echoed hcs, String.toList_intercalate]
  · rw [hcode]
    refine Text.isSharp_intercalate (by simp) ?_ _
    exact forall_mem_map.2 fun e he => (hcs e he).sharp

theorem echoed_negation (hword : token.text = "not") (hc : c.Echoed) :
    (node i .notTest span [leaf k token, c]).Echoed := by
  have hcode : (node i .notTest span [leaf k token, c]).code =
      "not".toList ++ (" ".toList ++ c.code) := by
    rw [code_eq "" " " "" rfl]
    simp [hword]
  constructor
  · rw [hcode, expr_negation, Expr.text, hc.code]
    simp [python]
  · rw [hcode]
    exact Text.isSharp_append rfl hc.sharp _

theorem echoed_sign (htoken : token.text ∈ ["+", "-", "~"]) (hc : c.Echoed) :
    (node i .factor span [leaf k token, c]).Echoed := by
  have hcode : (node i .factor span [leaf k token, c]).code = token.text.toList ++ ([] ++ c.code) := by
    rw [code_eq "" "" "" rfl]
    simp
  have hsharp : ∀ text ∈ ["+", "-", "~"], Text.isSharp text.toList := by decide
  constructor
  · rw [hcode, expr_sign, Expr.text, hc.code]
    simp
  · rw [hcode]
    exact Text.isSharp_append (hsharp _ htoken) hc.sharp _

theorem echoed_power (hsign : token.text = "**") (hc : c.Echoed) (hd : d.Echoed) :
    (node i .power span [c, leaf k token, d]).Echoed := by
  have hcode : (node i .power span [c, leaf k token, d]).code = c.code ++ (" ** ".toList ++ d.code) := by
    rw [code_eq "" " " "" rfl]
    simp [hsign]
  constructor
  · rw [hcode, expr_power, Expr.text, hc.code, hd.code]
    simp [python]
  · rw [hcode]
    exact Text.isSharp_append hc.sharp hd.sharp _

theorem echoed_comparison (hop : op.Plain) (hrule : op.rule? = some .compOp) (hc : c.Echoed)
    (hd : d.Echoed) : (node i .comparison span [c, op, d]).Echoed := by
  have hcode : (node i .comparison span [c, op, d]).code =
      c.code ++ ((python.compare op.spelling "" "").toList ++ d.code) := by
    rw [code_eq "" " " "" rfl, ← hop.code_operator hrule]
    simp
  constructor
  · have htext : (node i .comparison span [c, op, d]).expr.text .python =
        python.compare op.spelling (c.expr.text .python) (d.expr.text .python) := rfl
    rw [hcode, htext, hc.code, hd.code, compare_eq_append _ (c.expr.text .python)]
    simp
  · rw [hcode]
    exact Text.isSharp_append hc.sharp hd.sharp _

theorem code_operations (hcs : Alternates (·.isNode = false) (·.isVisited) cs)
    (h : ∀ e ∈ cs, e.isVisited → e.Echoed) {a : Expr}
    (ha : Text.isSharp (a.text .python).toList) :
    ((a.operations cs (cs.map expr)).text .python).toList =
        (a.text .python).toList ++ (cs.map code).flatMap (" ".toList ++ ·) ∧
      Text.isSharp ((a.operations cs (cs.map expr)).text .python).toList := by
  induction hcs generalizing a with
  | nil => exact ⟨(append_nil _).symm, ha⟩
  | @cons op operand rest hop hoperand _ ih =>
    cases op with
    | node => cases hop
    | leaf id token =>
      have hsecond := h operand (by simp) hoperand
      have htext : ((Expr.operation token.text a operand.expr).text .python).toList =
          (a.text .python).toList ++ (" ".toList ++ token.text.toList ++ " ".toList ++ operand.code) := by
        rw [Expr.text, toList_operate, hsecond.code]
      have hsharp : Text.isSharp
          ((Expr.operation token.text a operand.expr).text .python).toList := by
        rw [htext]
        exact Text.isSharp_append ha hsecond.sharp _
      obtain ⟨hcode, hend⟩ := ih (fun e he => h e (by simp [he])) hsharp
      refine ⟨?_, hend⟩
      change ((Expr.operations _ rest (rest.map expr)).text .python).toList = _
      rw [hcode, htext]
      simp

theorem echoed_operation (hrule : rule.isOperation) (hc : c.Echoed)
    (hcs : Alternates (·.isNode = false) (·.isVisited) cs) (h : ∀ e ∈ cs, e.isVisited → e.Echoed) :
    (node i rule span (c :: cs)).Echoed := by
  have hsetting : rule.affixes?.map Affixes.texts = some ([], " ".toList, []) := by
    cases rule
    all_goals first | rfl | cases hrule
  obtain ⟨hcode, hsharp⟩ := code_operations hcs h (hc.code ▸ hc.sharp)
  have heq : (node i rule span (c :: cs)).code =
      ((node i rule span (c :: cs)).expr.text .python).toList := by
    rw [expr_operation hrule, hcode, code_eq "" " " "" hsetting, map_cons,
      intercalate_cons_eq_append, hc.code]
    simp
  refine ⟨heq, ?_⟩
  rw [heq, expr_operation hrule]
  exact hsharp

/-! ## All nodes -/

/-- A plain expression whose comparisons have one operator each is written as it is printed. -/
theorem Plain.echoed (h : t.Plain) (hlinked : t.Linked) (hvisited : t.isVisited) : t.Echoed := by
  refine h.form_induction hvisited fun i rule span cs hmem hplain hform ih => ?_
  have hchild := ih.child
  cases hform with
  | @wrapper _ c hrule hc =>
    obtain ⟨hcode, hsharp⟩ := hchild c (.head _) hc
    have hsame := hplain.code_wrapper hrule
    refine ⟨?_, hsame ▸ hsharp⟩
    rw [hsame, hcode, expr_wrapper hrule (isNode_of_isVisited hc)]
  | literal hrule hlexed => exact echoed_literal hrule hlexed
  | @parenthesized k sp c hc =>
    exact echoed_parenthesized (ih.listed _ (.head _) c (.head _) hc)
  | emptyArray =>
    have hempty : (Expr.array []).text .python = "[]" := by decide
    exact ⟨(congrArg String.toList hempty).symm, rfl⟩
  | array hcs =>
    exact echoed_array fun c hc => ih.listed _ (.head _) c hc (hcs c hc)
  | emptyDocument =>
    have hempty : (Expr.document [] []).text .python = "\x7b\x7d" := by decide
    exact ⟨(congrArg String.toList hempty).symm, rfl⟩
  | document hcs =>
    exact echoed_document hcs (ih.entry _ (.head _))
  | disjunction hcs =>
    refine echoed_logical " or " (fun e he => hchild e he (hcs e he)) rfl ?_
    rw [expr_disjunction]
    rfl
  | conjunction hcs =>
    refine echoed_logical " and " (fun e he => hchild e he (hcs e he)) rfl ?_
    rw [expr_conjunction]
    rfl
  | negation hword hc => exact echoed_negation hword (hchild _ (.tail _ (.head _)) hc)
  | @comparison c op d cs hc hcs =>
    have hlength := hlinked _ hmem rfl
    cases hcs with
    | cons hop hd hrest =>
      obtain rfl : cs = [] := by
        rw [children, length_cons, length_cons, length_cons] at hlength
        exact length_eq_zero_iff.1 (by omega)
      have hmem : op ∈ [c, op, d] := .tail _ (.head _)
      exact echoed_comparison (hplain.child hmem (isNode_of_rule? hop)) hop
        (hchild c (.head _) hc) (hchild d (.tail _ (.tail _ (.head _))) hd)
  | @operation _ c op d cs hrule hc hcs =>
    exact echoed_operation hrule (hchild c (.head _) hc) hcs fun e he =>
      hchild e (.tail _ he)
  | sign htoken hc => exact echoed_sign htoken (hchild _ (.tail _ (.head _)) hc)
  | power hsign hc hd =>
    exact echoed_power hsign (hchild _ (.head _) hc)
      (hchild _ (.tail _ (.tail _ (.head _))) hd)

end Tree

end QueryScribe
