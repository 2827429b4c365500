import QueryScribe.Proofs.Expression.Program
import QueryScribe.Proofs.NumericCast
import QueryScribe.Proofs.Precedence.Image

/-!
# The grouping of operators in compiled code

A program of one expression of integers, truth values, arrays and operators compiles for the target with
Java's operators, and the code is read by their precedence to the phrase that groups operands as the source
does exactly when that phrase is grouped and spaced (`java_code_groups_iff`). A negation of a comparison is
not (`negation_of_equality_regroups`).
-/

namespace QueryScribe

open List

open Java

/-- Whether a node is one of a program that is a single expression of integers, truth values, parentheses,
arrays and operators other than powers and matrix products. Octal integers have a digit, and their value
has not too many. -/
def Tree.isOperational : Tree → Bool
  | leaf _ _ => true
  | node _ rule _ cs =>
    match rule with
    | .fileInput | .simpleStmt | .testListStar | .power => cs.length == 1
    | .setLiteral => cs.any (·.children.length == 1)
    | .expr | .xorExpr | .andExpr | .shiftExpr | .arithExpr | .term =>
      cs.all fun c => c.token?.all fun token => operators.contains token.text
    | .octLiteral => cs.all fun c => c.token?.all fun token =>
      (token.text.toList.drop 2).any (· ≠ '_') &&
        decide (Numeral.positional 8 (Literal.digits .octLiteral token.text) < 10 ^ Numeral.maxDigits)
    | .stmt | .smallStmt | .exprStmt | .test | .orTest | .andTest | .notTest | .comparison | .compOp
    | .factor | .atomExpr | .arrayLiteral | .testListComp | .integerLiteral | .hexLiteral | .binLiteral
    | .booleanLiteral => true
    | _ => false

theorem Tree.isPlain_of_isOperational {t : Tree} (h : t.isOperational) : t.isPlain := by
  cases t with
  | leaf => rfl
  | node i rule span cs =>
    cases rule
    case fileInput | simpleStmt | testListStar | setLiteral => exact h
    all_goals first | rfl | cases h

/-! ## Literals -/

namespace Java

theorem isWord_decimal (n : Nat) : isWord (Numeral.decimal n) := by
  have hdigits : ∀ d < 10, isWordChar (Nat.digitChar d) := by decide
  have htext : (Numeral.decimal n).toList = Nat.toDigits 10 n := by
    rw [Numeral.decimal, String.toList_ofList]
    rfl
  rw [isWord, htext, Bool.and_eq_true, all_eq_true]
  refine ⟨fun c hc => ?_, by simp [Nat.toDigits_ne_nil]⟩
  obtain ⟨d, hd, rfl⟩ := Numeral.exists_of_mem_toDigits (by decide) hc
  exact hdigits d hd

theorem isWord_append {a b : String} (ha : isWord a) (hb : isWord b) :
    isWord (a ++ b) := by
  simp only [isWord, Bool.and_eq_true, String.toList_append, all_append, Bool.not_eq_true',
    isEmpty_eq_false_iff] at ha hb ⊢
  exact ⟨⟨ha.1, hb.1⟩, append_ne_nil_of_left_ne_nil ha.2 _⟩

end Java

theorem Java.notMem_markChars {text : String} {p : Char → Bool} (hmarks : ∀ m ∈ markChars, p m = false)
    (h : ∀ c ∈ Literal.significant text, p c) : ∀ c ∈ text.toList, c ∉ markChars := by
  intro c hc hmark
  have hline : ∀ m ∈ markChars, m ≠ '_' := all_iff_forall_prop.1 (by decide)
  have hmem : c ∈ Literal.significant text := mem_filter.2 ⟨hc, by simpa using hline c hmark⟩
  have hp := h c hmem
  rw [hmarks c hmark] at hp
  cases hp

namespace Token.Lexed

variable {token : Token} (h : token.Lexed)

include h

theorem isWord_of_number (hkind : token.kind ∈ Lexer.numberKinds)
    (hmarks : ∀ c ∈ token.text.toList, c ∉ markChars) : isWord token.text := by
  have helementary : ∀ kind ∈ Lexer.numberKinds, kind ∈ Terminal.elementary := by decide
  obtain ⟨d, ds, htext, -⟩ := h.lead (helementary _ hkind)
  have hblank := h.isBlank_of_number hkind
  rw [isWord, Bool.and_eq_true, all_eq_true]
  refine ⟨fun c hc => ?_, by rw [htext]; rfl⟩
  simp [isWordChar, hblank c hc, hmarks c hc]

theorem isWord_of_based {kind : Terminal} (hkind : token.kind = kind) {lower upper : Char}
    {digit : Char → Bool} (hmem : (kind, Lexer.based? lower upper fun c => digit c || c == '_') ∈ Lexer.classes)
    (hnumber : kind ∈ Lexer.numberKinds)
    (hmarks : ∀ m ∈ '_' :: markChars, (m == lower || m == upper || digit m) = false) :
    isWord token.text := by
  obtain ⟨hline, hmarks⟩ := forall_mem_cons.1 hmarks
  simp only [Bool.or_eq_false_iff, beq_eq_false_iff_ne] at hline
  obtain ⟨c, hc, hfilter, hdigits⟩ := h.significant_of_based hkind hmem (Ne.symm hline.1.1) (Ne.symm hline.1.2)
  refine h.isWord_of_number (hkind ▸ hnumber)
    (notMem_markChars (p := fun m => m == '0' || (m == lower || m == upper || digit m)) ?_ ?_)
  · have hzero : ∀ m ∈ markChars, (m == '0') = false := all_iff_forall_prop.1 (by decide)
    intro m hm
    rw [hzero m hm, hmarks m hm]
    rfl
  · intro d hd
    rw [Literal.significant, hfilter] at hd
    rcases mem_cons.1 hd with rfl | hd
    · rfl
    · rcases mem_cons.1 hd with rfl | hd
      · rcases hc with rfl | rfl <;> simp
      · simp [hdigits d hd]

end Token.Lexed

/-- A literal of an operational node is written as a word. -/
theorem Tree.exists_word {i k : Nat} {rule : Rule} {span : Span} {token : Token}
    (hkind : token.kind ∈ rule.literalKinds) (hlexed : token.Lexed)
    (h : (node i rule span [leaf k token]).isOperational) :
    ∃ word, Target.java.writeLiteral rule.literalType token.text = .ok word ∧ isWord word := by
  cases rule
  case integerLiteral =>
    have hkind := mem_singleton.1 hkind
    have hdigits : ∀ m ∈ markChars, Text.isDigit m = false := all_iff_forall_prop.1 (by decide)
    refine ⟨token.text ++ "L", rfl, isWord_append ?_ (by decide)⟩
    exact hlexed.isWord_of_number (hkind ▸ by decide)
      (notMem_markChars hdigits (hlexed.digits_of_decimal hkind).2)
  case hexLiteral =>
    exact ⟨token.text, rfl, hlexed.isWord_of_based (mem_singleton.1 hkind)
      (.tail _ (.tail _ (.head _))) (by decide)
      (all_iff_forall_prop.1 (by decide))⟩
  case binLiteral =>
    exact ⟨token.text, rfl, hlexed.isWord_of_based (mem_singleton.1 hkind)
      (.tail _ (.tail _ (.tail _ (.tail _ (.head _))))) (by decide)
      (all_iff_forall_prop.1 (by decide))⟩
  case octLiteral =>
    -- The target writes the number in base ten.
    obtain ⟨hany, hshort⟩ := Bool.and_eq_true_iff.1 (Bool.and_eq_true_iff.1 h).1
    have hdigits : (SignedInteger.mk [] .octLiteral token.text).digits ≠ [] := by
      obtain ⟨d, hd, hline⟩ := any_eq_true.1 hany
      exact ne_nil_of_mem (mem_filter.2 ⟨hd, hline⟩)
    have hnumber := SignedInteger.number_of_short (i := ⟨[], .octLiteral, token.text⟩)
      (.tail _ (.tail _ (.head _))) rfl hkind hlexed hdigits (.inr nofun)
    have hlt : (Numeral.positional 8 (Literal.digits .octLiteral token.text) : Int).natAbs <
        10 ^ Numeral.maxDigits := by
      rw [Int.natAbs_natCast]
      exact decide_eq_true_iff.1 hshort
    exact ⟨_, Target.java_writeLiteral_octal hnumber hlt, isWord_decimal _⟩
  case booleanLiteral =>
    have hspelled : ∀ kind ∈ Rule.booleanLiteral.literalKinds, (kind, kind.token.text) ∈ Terminal.spelled ∧
        isWord (String.ofList (kind.token.text.toList.map Char.toLower)) := by decide
    obtain ⟨hmem, hword⟩ := hspelled _ hkind
    rw [hlexed.spelled _ hmem]
    exact ⟨_, rfl, hword⟩
  all_goals first | cases hkind | cases h

/-! ## Trees -/

theorem Alternates.forall_mem_everySecond {α : Type} {A B : α → Prop} {l : List α} (h : Alternates A B l) :
    ∀ e ∈ Renderer.everySecond l, e ∈ l ∧ A e := by
  induction h with
  | nil => nofun
  | @cons a b rest ha _ _ ih =>
    intro e he
    rcases mem_cons.1 he with rfl | he
    · exact ⟨.head _, ha⟩
    · exact ⟨.tail _ (.tail _ (ih e he).1), (ih e he).2⟩

namespace Tree

variable {i k : Nat} {span sp : Span} {cs : List Tree} {c d op s t : Tree}

theorem Plain.spelling_mem (h : op.Plain) (hrule : op.rule? = some .compOp) :
    op.spelling ∈ comparisons := by
  obtain ⟨k, sp, words, rfl⟩ := exists_of_rule? hrule
  obtain ⟨-, kinds, hkinds, htexts⟩ := (h.follows _ (self_mem_nodes rfl)).exists_comparison
  have hall : ∀ kinds ∈ Terminal.comparisons,
      String.join (kinds.map (·.token.text)) ∈ comparisons := by decide
  have hspelling : (node k .compOp sp words).spelling = String.join (kinds.map (·.token.text)) :=
    congrArg String.join htexts
  rw [hspelling]
  exact hall kinds hkinds

theorem expressible_operations {e : Expr} (he : Java.Expressible e)
    (hcs : Alternates (·.isNode = false) (·.isVisited) cs)
    (hops : cs.all (fun c => c.token?.all fun token => operators.contains token.text))
    (h : ∀ c ∈ cs, c.isVisited → Java.Expressible c.expr) :
    Java.Expressible (e.operations cs (cs.map expr)) := by
  induction hcs generalizing e with
  | nil => exact he
  | @cons op operand rest hop hoperand _ ih =>
    cases op with
    | node => cases hop
    | leaf id token =>
      rw [all_cons, all_cons, Bool.and_eq_true, Bool.and_eq_true] at hops
      have hoperator : token.text ∈ operators := elem_iff.1 hops.1
      exact ih (.operation hoperator he (h operand (by simp) hoperand)) hops.2.2
        fun c hc => h c (by simp [hc])

theorem expressible_comparison (hc : c.isVisited)
    (hcs : Alternates (·.rule? = some .compOp) (·.isVisited) (op :: d :: cs))
    (hops : ∀ e ∈ op :: d :: cs, e.rule? = some .compOp → e.spelling ∈ comparisons)
    (h : ∀ e ∈ c :: op :: d :: cs, e.isVisited → Java.Expressible e.expr) :
    Java.Expressible (node i .comparison span (c :: op :: d :: cs)).expr := by
  have hoperands : ∀ e ∈ (Renderer.everySecond (c :: op :: d :: cs)).map expr, Java.Expressible e := by
    refine forall_mem_map.2 fun e he => ?_
    obtain ⟨hmem, hvisited⟩ :=
      Renderer.forall_mem_everySecond (B := fun e : Tree => e.isVisited) hc hcs e he
    exact h e hmem hvisited
  have hspellings : ∀ o ∈ (Renderer.everySecond (op :: d :: cs)).map spelling, o ∈ comparisons := by
    refine forall_mem_map.2 fun e he => ?_
    obtain ⟨hmem, hrule⟩ := hcs.forall_mem_everySecond e he
    exact hops e hmem hrule
  rw [expr_comparison]
  cases hcs with
  | cons _ _ hcs =>
    cases hcs with
    | nil => exact .comparison hoperands hspellings
    | cons => exact .comparison hoperands hspellings

/-- What an operational tree says is expressible. -/
theorem Plain.expressible (h : t.Plain) (hvisited : t.isVisited)
    (hoperational : ∀ s ∈ t.nodes, s.isOperational) : Java.Expressible t.expr := by
  refine h.form_induction (motive := fun t => Java.Expressible t.expr) hvisited
    fun i rule span cs hmem hplain hform ih => ?_
  have hself := hoperational _ hmem
  have hchild := ih.child
  cases hform with
  | @wrapper _ c hrule hc =>
    rw [expr_wrapper hrule (isNode_of_isVisited hc)]
    exact hchild c (.head _) hc
  | @literal _ k token hkind hlexed =>
    obtain ⟨word, hwrite, hword⟩ := exists_word hkind hlexed hself
    rw [expr_literal hkind]
    exact .literal (by rwa [Target.literalText, hwrite])
  | parenthesized hc => exact .parenthesized (ih.listed _ (.head _) _ (.head _) hc)
  | emptyArray => exact .array (by simp)
  | array hcs =>
    rw [expr_array]
    exact .array (forall_mem_map.2 fun c hc => ih.listed _ (.head _) c hc (hcs c hc))
  | emptyDocument | document => cases hself
  | disjunction hcs =>
    rw [expr_disjunction]
    exact .disjunction (by simp) (forall_mem_map.2 fun e he => hchild e he (hcs e he))
  | conjunction hcs =>
    rw [expr_conjunction]
    exact .conjunction (by simp) (forall_mem_map.2 fun e he => hchild e he (hcs e he))
  | negation _ hc => exact .negation (hchild _ (.tail _ (.head _)) hc)
  | @comparison c op d rest hc hcs =>
    refine expressible_comparison hc hcs (fun e he hrule => ?_) hchild
    exact (hplain.child (.tail _ he) (isNode_of_rule? hrule)).spelling_mem hrule
  | @operation _ c op d rest hrule hc hcs =>
    have hops : (op :: d :: rest).all
        (fun c => c.token?.all fun token => operators.contains token.text) := by
      have hall : (c :: op :: d :: rest).all
          (fun c => c.token?.all fun token => operators.contains token.text) := by
        cases rule
        all_goals first | exact hself | cases hrule
      exact (Bool.and_eq_true_iff.1 hall).2
    rw [expr_operation hrule]
    exact expressible_operations (hchild _ (.head _) hc) hcs hops fun c hc => hchild c (.tail _ hc)
  | sign htoken hc =>
    refine .sign ?_ (hchild _ (.tail _ (.head _)) hc)
    simpa [or_comm, or_left_comm] using htoken
  | power => cases hself

theorem isWritable_of_isOperational (hfollows : t.FollowsProduction) (h : t.isOperational) :
    t.isWritable .java := by
  unfold isWritable
  split
  · cases h
  · rename_i i rule span k token hrule
    by_cases hliteral : rule.literalKinds.isEmpty
    · rw [hliteral]
      rfl
    · have hform := hfollows.form (isFormed_of_isPlain (isPlain_of_isOperational h))
      obtain ⟨_, _, heq, hkind, hlexed⟩ := hform.exists_literal (by simpa using hliteral)
      cases heq
      obtain ⟨word, hwrite, -⟩ := exists_word hkind hlexed h
      rw [hwrite, Bool.or_eq_true]
      exact .inr rfl
  · rfl

end Tree

/-! ## Compiled code -/

namespace Java.Phrase

theorem exists_last : (e : Phrase) → e.isWorded →
    ∃ c, e.text.toList.getLast? = some c ∧ Text.isBlank c = false
  | word text, h => by
    simp only [isWorded, isWord, Bool.and_eq_true, all_eq_true, Bool.not_eq_true',
      isEmpty_eq_false_iff] at h
    refine ⟨_, getLast?_eq_some_getLast h.2, ?_⟩
    have hlast := h.1 _ (getLast_mem h.2)
    simp only [isWordChar, Bool.and_eq_true, Bool.not_eq_true'] at hlast
    exact hlast.1
  | group e, _ => ⟨')', by rw [text, String.toList_append, getLast?_append]; rfl, by decide⟩
  | call receiver method args, _ =>
    ⟨')', by rw [text, String.toList_append, getLast?_append]; rfl, by decide⟩
  | sign op e, h => by
    simp only [isWorded, Bool.and_eq_true] at h
    obtain ⟨c, hc, hblank⟩ := exists_last e h.2
    exact ⟨c, by rw [text, String.toList_append, getLast?_append, hc]; rfl, hblank⟩
  | binary op a b, h => by
    simp only [isWorded, Bool.and_eq_true] at h
    obtain ⟨c, hc, hblank⟩ := exists_last b h.2
    exact ⟨c, by rw [text, String.toList_append, getLast?_append, hc]; rfl, hblank⟩

theorem trimmed_text {e : Phrase} (h : e.isWorded) : trimmed e.text = e.text := by
  have hblank : ∀ c ∈ ['(', '!', '~', '+', '-'], Text.isBlank c = false :=
    all_iff_forall_prop.1 (by decide)
  obtain ⟨c, hc, hlead⟩ := e.exists_lead h
  obtain ⟨d, hd, hlast⟩ := e.exists_last h
  have hfirst : Text.isBlank c = false := by
    rcases hlead with ⟨hword, -⟩ | ⟨hmem, -⟩
    · simp only [isWordChar, Bool.and_eq_true, Bool.not_eq_true'] at hword
      exact hword.1
    · exact hblank c hmem
  have hsharp : Text.isSharp e.text.toList := by simp [Text.isSharp, hc, hd, hfirst, hlast]
  rw [trimmed, Text.trim_of_isSharp hsharp, String.ofList_toList]

end Java.Phrase

/-- A source that is one expression of integers, truth values, arrays and operators compiles, and the
precedence of operators groups the operands of the code as the source does exactly when each operand of
the phrase binds more tightly than its operator and no sign runs into the same sign. -/
theorem java_code_groups_iff {source : String} {t : Tree} {options : Options}
    (hparse : parse source = .ok t) (hoperational : ∀ s ∈ t.nodes, s.isOperational = true)
    (hlength : options.exceeded source.length = none) :
    ∃ output, compile .java options source = .ok output ∧ output.code = (image t.expr).text ∧
      (read output.code = some (image t.expr) ↔
        (image t.expr).isGrouped = true ∧ (image t.expr).isSpaced = true) := by
  have hplain : ∀ s ∈ t.nodes, s.isPlain = true := fun s hs =>
    Tree.isPlain_of_isOperational (hoperational s hs)
  have hfollows := Tree.follows_of_parse hparse
  obtain ⟨-, -, -, -, s, -, hsmall, hs, hexpr, hbelow⟩ := Tree.exists_statement_of_parse hparse hplain
  have hexpressible : Java.Expressible t.expr := by
    rw [hexpr]
    exact hs.expressible (Tree.isVisited_of_smallStmt hsmall) fun u hu => hoperational u (hbelow u hu)
  obtain ⟨output, hcompile, hcode⟩ := compile_of_plain hparse hplain
    (fun u hu => Tree.isWritable_of_isOperational (hfollows u hu) (hoperational u hu)) hlength
  have htext : output.code = (image t.expr).text := by
    rw [hcode, ← hexpressible.text_image]
    simp [Target.java, Java.Phrase.trimmed_text hexpressible.isWorded_image]
  refine ⟨output, hcompile, htext, ?_⟩
  rw [htext]
  exact read_text_iff hexpressible.isWorded_image

/-- A chain in a conjunction, a negation of parentheses and a membership in an array. -/
theorem java_code_groups_chain :
    ∃ t, parse "1 + 2 * -3 << 4 < 5 <= 6 and not (7 == 8) or 0x1F not in [0o17 // 2, True]" = .ok t ∧
      (∀ s ∈ t.nodes, s.isOperational = true) ∧ (image t.expr).isGrouped = true ∧
      (image t.expr).isSpaced = true ∧ ∃ output, compile .java {}
          "1 + 2 * -3 << 4 < 5 <= 6 and not (7 == 8) or 0x1F not in [0o17 // 2, True]" = .ok output ∧
        output.code = (image t.expr).text ∧
        (read output.code = some (image t.expr) ↔
          (image t.expr).isGrouped = true ∧ (image t.expr).isSpaced = true) := by
  have h : ∃ t ∈ (parse
      "1 + 2 * -3 << 4 < 5 <= 6 and not (7 == 8) or 0x1F not in [0o17 // 2, True]").toOption,
      (∀ s ∈ t.nodes, s.isOperational = true) ∧ (image t.expr).isGrouped = true ∧
        (image t.expr).isSpaced = true := by
    decide +kernel
  obtain ⟨t, ht, hoperational, hgrouped, hspaced⟩ := h
  have hparse := eq_ok_of_mem_toOption ht
  exact ⟨t, hparse, hoperational, hgrouped, hspaced, java_code_groups_iff hparse hoperational rfl⟩

/-- The code for the negation of a comparison is read as a comparison of a negation. -/
theorem negation_of_equality_regroups :
    ∃ t output, parse "not 1 == 2" = .ok t ∧ compile .java {} "not 1 == 2" = .ok output ∧
      output.code = "!1L == 2L" ∧
      read output.code = some (.binary "==" (.sign "!" (.word "1L")) (.word "2L")) ∧
      read output.code ≠ some (image t.expr) := by
  have h : ∃ t ∈ (parse "not 1 == 2").toOption,
      ∃ output ∈ (compile .java {} "not 1 == 2").toOption, output.code = "!1L == 2L" ∧
        (image t.expr).text = "!1L == 2L" ∧ (image t.expr).isWorded = true ∧
        (image t.expr).isGrouped = false := by
    decide +kernel
  obtain ⟨t, ht, output, houtput, hcode, htext, hworded, hgrouped⟩ := h
  have hread : read "!1L == 2L" = some (.binary "==" (.sign "!" (.word "1L")) (.word "2L")) :=
    (read_text_iff (e := .binary "==" (.sign "!" (.word "1L")) (.word "2L")) (by decide)).2 (by decide)
  refine ⟨t, output, eq_ok_of_mem_toOption ht, eq_ok_of_mem_toOption houtput, hcode, hcode ▸ hread, ?_⟩
  intro hsame
  rw [hcode, ← htext, read_text_iff hworded, hgrouped] at hsame
  cases hsame.1

end QueryScribe
