import QueryScribe.Proofs.Int64Text
import QueryScribe.Proofs.NumericCast
import QueryScribe.Proofs.ReadyCall

/-!
# The range of 64-bit integers

A 64-bit integer may be given by a literal below signs, parentheses and nodes that only wrap it. Its
value is that of the literal under the signs, whatever parentheses there are (`Tree.groupedInteger?`).
The check of its range is made on the view of the argument as a number with signs, and this view ends at
the first parenthesis: below one there is nothing to check, without any the value that is checked is the
value of the argument (`Signed.value?_under`).

Unless the literal has too many digits the argument can be written, and as a long integer where this is
asked for (`Tree.Formed.settled_of_grouped`, `Signed.castsTo_under`), so the check is the only thing that
can fail (`Renderer.ends_int64Call`).
-/

namespace QueryScribe

open List

open QueryScribe.Tree
open Render (Ends exec)

/-- An integer literal, with a digit at least, and the signs before it, below parentheses and
wrappings. -/
def Tree.groupedInteger? : Tree → Option SignedInteger
  | node _ rule _ [leaf _ token] =>
    if rule ∈ SignedInteger.rules ∧ SignedInteger.digits ⟨[], rule, token.text⟩ ≠ [] then
      some ⟨[], rule, token.text⟩
    else none
  | node _ .setLiteral _ [node _ .testListComp _ [t]] => groupedInteger? t
  | node _ rule _ [node i r s cs] => if rule.isWrapper then groupedInteger? (node i r s cs) else none
  | node _ rule _ [leaf _ sign, operand] =>
    if rule = .factor ∧ sign.text ∈ SignedInteger.allSigns then
      (groupedInteger? operand).map (·.under sign.text)
    else none
  | _ => none

/-- An integer whose literal has no more digits than there may be in a text. -/
def SignedInteger.IsShort (i : SignedInteger) : Prop := i.magnitude < 10 ^ Numeral.maxDigits

/-- A call of a name. -/
def Tree.isCallOf (name : String) (t : Tree) : Bool :=
  t.isOf .functionCall && t.subtrees.head?.any (isNamed name)

variable {target : Target} {names : CharacterNames} {t root : Tree} {i : SignedInteger}

namespace Tree

theorem Formed.callee_of_isCallOf {name : String} {type : ValueType} (hroot : root.Formed)
    (ht : t ∈ root.nodes) (h : t.isCallOf name) (htype : ValueType.ofSymbol? name = some type) :
    t.calleeType = type ∧ ∀ callee ∈ t.subtrees.head?, callee.isNamed name := by
  obtain ⟨hof, hnamed⟩ := Bool.and_eq_true_iff.1 h
  obtain ⟨callee, rest, hsubtrees, hpart, -, hnatural, -⟩ := hroot.exists_callee ht hof
  rw [hsubtrees] at hnamed ⊢
  have hmem := mem_nodes_trans ht (mem_nodes_of_mem_parts hpart)
  exact ⟨hnatural.symm.trans (settled_of_isNamed ⟨.java, default⟩ htype hroot hmem hnamed).2, by rintro _ ⟨⟩; exact hnamed⟩

/-! ## Arguments -/

/-- A decimal with too many digits is infinite. -/
theorem SignedInteger.number_of_long {text : String} {token : Token} (htext : token.text = text)
    (hkind : token.kind ∈ Rule.integerLiteral.literalKinds) (hlexed : token.Lexed)
    (hdigits : SignedInteger.digits ⟨[], .integerLiteral, text⟩ ≠ [])
    (hlong : 10 ^ Numeral.maxDigits ≤ SignedInteger.magnitude ⟨[], .integerLiteral, text⟩) :
    Literal.number text .long = .ok (.double (.infinite false)) := by
  subst htext
  have hnumber := SignedInteger.number_eq (i := ⟨[], .integerLiteral, token.text⟩) (.head _) rfl hkind
    hlexed hdigits
  refine hnumber.trans (congrArg Except.ok (if_pos ⟨rfl, ?_⟩))
  by_contra hshort
  obtain ⟨-, hall⟩ := hlexed.digits_of_decimal (mem_singleton.1 hkind)
  have hlt := Numeral.positional_lt (by decide : 1 < 10) fun c hc => (Numeral.exists_ascii_of_isDigit (hall c hc)).1
  exact absurd (hlong.trans_lt hlt)
    (not_lt.2 (Nat.pow_le_pow_right (by decide) (not_lt.1 hshort)))

theorem isNode_of_groupedInteger? (h : t.groupedInteger? = some i) : t.isNode := by
  cases t with
  | leaf => cases h
  | node => rfl

theorem Formed.token_of_grouped {id i : Nat} {rule : Rule} {span : Span} {token : Token}
    (hroot : root.Formed) (ht : node id rule span [leaf i token] ∈ root.nodes)
    (hrule : rule ∈ SignedInteger.rules) :
    (node id rule span [leaf i token]).natural = SignedInteger.type ⟨[], rule, token.text⟩ ∧
      ∃ token' : Token, token'.text = token.text ∧ token'.kind ∈ rule.literalKinds ∧ token'.Lexed := by
  have hinteger : (node id rule span [leaf i token]).signedInteger? = some ⟨[], rule, token.text⟩ := by
    rw [signedInteger?, if_pos hrule]
  refine ⟨?_, (hroot.exists_token_of_signedInteger? ht hinteger).2⟩
  rw [natural_node]
  rcases SignedInteger.eq_of_mem_rules hrule with rfl | rfl | rfl <;> rfl

theorem Formed.literal_of_grouped {id i : Nat} {rule : Rule} {span : Span} {token : Token}
    (hroot : root.Formed) (ht : node id rule span [leaf i token] ∈ root.nodes)
    (htarget : target ∈ Target.all) (hrule : rule ∈ SignedInteger.rules)
    (hdigits : SignedInteger.digits ⟨[], rule, token.text⟩ ≠ [])
    (hshort : SignedInteger.IsShort ⟨[], rule, token.text⟩) :
    (node id rule span [leaf i token]).natural ∈ SignedInteger.types ∧
      Literal.number token.text (node id rule span [leaf i token]).natural =
        .ok (.int (SignedInteger.value ⟨[], rule, token.text⟩)) ∧
      (target.writeLiteral (node id rule span [leaf i token]).natural token.text).isOk := by
  obtain ⟨hnatural, token', htext, hkind, hlexed⟩ := hroot.token_of_grouped ht hrule
  have hnumber := SignedInteger.number_of_short hrule htext hkind hlexed hdigits (.inl hshort)
  obtain ⟨written, hwritten⟩ := exists_writeLiteral (.inl htarget) (SignedInteger.type_mem _)
    fun hoctal => .inr ⟨_, hoctal ▸ hnumber, by exact hshort⟩
  rw [hnatural]
  exact ⟨SignedInteger.type_mem _, hnumber, by rw [hwritten]; rfl⟩

/-- An integer can be written and has an integer type. -/
theorem Formed.settled_of_grouped (hroot : root.Formed) (names : CharacterNames)
    (htarget : target ∈ Target.all) (ht : t ∈ root.nodes) (h : t.groupedInteger? = some i)
    (hshort : i.IsShort) : t.Settled ⟨target, names⟩ ∧ t.natural ∈ SignedInteger.types := by
  fun_induction groupedInteger? t generalizing i with
  | case1 id rule span k token hliteral =>
    cases h
    obtain ⟨hnatural, -, hwritten⟩ := hroot.literal_of_grouped ht htarget hliteral.1 hliteral.2 hshort
    refine ⟨.of_children ?_ ?_ (forall_mem_singleton.2 nofun) (forall_mem_singleton.2 nofun),
      hnatural⟩
    · rcases SignedInteger.eq_of_mem_rules hliteral.1 with rfl | rfl | rfl <;> exact nofun
    · rcases SignedInteger.eq_of_mem_rules hliteral.1 with rfl | rfl | rfl
      all_goals exact ⟨rfl, fun _ => hwritten⟩
  | case2 => cases h
  | case3 id span k sp t ih =>
    have hnode := isNode_of_groupedInteger? h
    obtain ⟨hsettled, hnatural⟩ := ih (mem_nodes_trans ht (mem_nodes_of_parenthesis hnode)) h hshort
    exact ⟨hsettled.parenthesis hroot ht hnode, by rwa [natural_parenthesis hnode]⟩
  | case4 id rule span k r sp cs hno hrule ih =>
    obtain ⟨hsettled, hnatural⟩ := ih
      (mem_nodes_trans ht (mem_nodes_of_mem_children (.head _) (self_mem_nodes rfl))) h hshort
    exact ⟨hsettled.wrapper hroot ht rfl hrule, by rwa [natural_wrapper (.inl hrule) rfl]⟩
  | case5 => cases h
  | case6 id rule span k sign operand hrule ih =>
    obtain ⟨rfl, -⟩ := hrule
    obtain ⟨m, hm, rfl⟩ := Option.map_eq_some_iff.1 h
    obtain ⟨hvisited, -⟩ := hroot.operand_of_sign ht
    have hnode := isNode_of_isVisited hvisited
    obtain ⟨hsettled, hnatural⟩ := ih (mem_nodes_trans ht
      (mem_nodes_of_mem_children (.tail _ (.head _)) (self_mem_nodes hnode))) hm hshort
    refine ⟨.of_children nofun (admitted_of_isWrapper (.inl rfl)) ?_ ?_, by rwa [natural_sign hnode]⟩
    · exact forall_mem_cons.2 ⟨nofun, forall_mem_singleton.2 fun _ => hvisited⟩
    · exact forall_mem_cons.2 ⟨nofun, forall_mem_singleton.2 fun _ => hsettled⟩
  | case7 => cases h
  | case8 => cases h

end Tree

/-! ## Views -/

namespace Signed

theorem under_parenthesis {id : Nat} {span : Span} {c : Tree} (passed : List Tree) :
    under passed (.node id .setLiteral span [c]) = other (passed ++ [.node id .setLiteral span [c]]) := by
  cases c <;> rfl

/-- An integer can be written as a long integer. -/
theorem castsTo_under (passed : List Tree) (hroot : root.Formed) (htarget : target ∈ Target.all) {top : Tree}
    (htop : top.natural = t.natural) (ht : t ∈ root.nodes) (h : t.groupedInteger? = some i)
    (hshort : i.IsShort) : (under passed t).CastsTo target .long top := by
  fun_induction groupedInteger? t generalizing i passed top with
  | case1 id rule span k token hliteral =>
    cases h
    obtain ⟨-, hnumber, -⟩ := hroot.literal_of_grouped ht htarget hliteral.1 hliteral.2 hshort
    have hlong : ValueType.long ∈ SignedInteger.types := by decide
    obtain ⟨canonical, hcanonical, -⟩ :=
      Literal.exists_number_of_canonical hlong (n := SignedInteger.magnitude ⟨[], rule, token.text⟩)
        (.inr (.inr hshort))
    obtain ⟨written, hwritten⟩ : ∃ written, target.writeLiteral .long canonical = .ok written :=
      exists_writeLiteral (.inl htarget) hlong nofun
    rw [under_literal hliteral.1]
    exact ⟨_, canonical, by rw [htop]; exact hnumber, hcanonical, by rw [hwritten]; rfl⟩
  | case2 => cases h
  | case3 =>
    rw [under_parenthesis]
    trivial
  | case4 id rule span k r sp cs hno hrule ih =>
    rw [under_wrapper hrule rfl]
    refine ih _ (htop.trans (natural_wrapper (.inl hrule) rfl)) ?_ h hshort
    exact mem_nodes_trans ht
      (mem_nodes_of_mem_children (.head _) (self_mem_nodes rfl))
  | case5 => cases h
  | case6 id rule span k sign operand hrule ih =>
    obtain ⟨rfl, -⟩ := hrule
    obtain ⟨m, hm, rfl⟩ := Option.map_eq_some_iff.1 h
    rw [under_sign]
    refine ih [] rfl ?_ hm hshort
    exact mem_nodes_trans ht (mem_nodes_of_mem_children
      (.tail _ (.head _)) (self_mem_nodes (isNode_of_groupedInteger? hm)))
  | case7 => cases h
  | case8 => cases h

/-- A literal is seen in an integer exactly if this has no parentheses. -/
theorem isNumber_under (passed : List Tree) (h : t.groupedInteger? = some i) :
    (under passed t).isNumber ↔ ∀ s ∈ t.nodes, s.isOf .setLiteral = false := by
  fun_induction groupedInteger? t generalizing i passed with
  | case1 id rule span k token hliteral =>
    rw [under_literal hliteral.1]
    refine ⟨fun _ s hs => ?_, fun _ => rfl⟩
    obtain rfl : s = .node id rule span [.leaf k token] := by
      simpa [mem_nodes_node, nodes_leaf] using hs
    rcases SignedInteger.eq_of_mem_rules hliteral.1 with rfl | rfl | rfl <;> rfl
  | case2 => cases h
  | case3 =>
    rw [under_parenthesis]
    refine ⟨by rintro ⟨⟩, fun hno => ?_⟩
    cases hno _ (self_mem_nodes rfl)
  | case4 id rule span k r sp cs hno hrule ih =>
    rw [under_wrapper hrule rfl]
    refine (ih _ h).trans ⟨fun hall s hs => ?_, fun hall s hs => ?_⟩
    · rcases mem_nodes_node.1 hs with rfl | ⟨c, hc, hs⟩
      · cases rule
        all_goals first | rfl | cases hrule
      · exact hall s (mem_singleton.1 hc ▸ hs)
    · exact hall s (mem_nodes_of_mem_children (.head _) hs)
  | case5 => cases h
  | case6 id rule span k sign operand hrule ih =>
    obtain ⟨rfl, -⟩ := hrule
    obtain ⟨m, hm, rfl⟩ := Option.map_eq_some_iff.1 h
    have hoperand := mem_nodes_of_mem_children (t := .node id .factor span [.leaf k sign, operand])
      (.tail _ (.head _)) (self_mem_nodes (isNode_of_groupedInteger? hm))
    rw [under_sign]
    refine Iff.trans (ih [] hm) ⟨fun hall s hs => ?_, fun hall s hs => hall s (mem_nodes_trans hoperand hs)⟩
    rcases mem_nodes_node.1 hs with rfl | ⟨c, hc, hs⟩
    · rfl
    · rcases mem_cons.1 hc with rfl | hc
      · rw [nodes_leaf] at hs
        cases hs
      · exact hall s (mem_singleton.1 hc ▸ hs)
  | case7 => cases h
  | case8 => cases h

/-- The value of the literal that is seen under its signs is the value of the integer. -/
theorem value?_under (passed : List Tree) (hroot : root.Formed) (htarget : target ∈ Target.all)
    (ht : t ∈ root.nodes) (h : t.groupedInteger? = some i) (hshort : i.IsShort)
    (hnumber : (under passed t).isNumber) : (under passed t).value? = some (.int i.value) := by
  fun_induction groupedInteger? t generalizing i passed with
  | case1 id rule span k token hliteral =>
    cases h
    obtain ⟨-, hvalue, -⟩ := hroot.literal_of_grouped ht htarget hliteral.1 hliteral.2 hshort
    rw [under_literal hliteral.1, value?, hvalue]
    rfl
  | case2 => cases h
  | case3 =>
    rw [under_parenthesis] at hnumber
    cases hnumber
  | case4 id rule span k r sp cs hno hrule ih =>
    rw [under_wrapper hrule rfl] at hnumber ⊢
    exact ih _ (mem_nodes_trans ht (mem_nodes_of_mem_children (.head _) (self_mem_nodes rfl))) h hshort
      hnumber
  | case5 => cases h
  | case6 id rule span k sign operand hrule ih =>
    obtain ⟨rfl, -⟩ := hrule
    obtain ⟨m, hm, rfl⟩ := Option.map_eq_some_iff.1 h
    rw [under_sign] at hnumber ⊢
    rw [value?, ih [] (mem_nodes_trans ht (mem_nodes_of_mem_children (.tail _ (.head _))
      (self_mem_nodes (isNode_of_groupedInteger? hm)))) hm hshort hnumber, Option.bind_some,
      SignedInteger.value_under, SignedInteger.applySign]
    split
    · rfl
    · split
      · rw [SignedInteger.not_eq_neg_sub_one]
        rfl
      · rfl
  | case7 => cases h
  | case8 => cases h

/-- A literal with too many digits is infinite if it is a decimal, else it cannot be written as a long
integer. -/
theorem infinite_or_not_castsTo (target : Target) (passed : List Tree) (hroot : root.Formed) {top : Tree}
    (htop : top.natural = t.natural) (ht : t ∈ root.nodes) (h : t.groupedInteger? = some i)
    (hlong : 10 ^ Numeral.maxDigits ≤ i.magnitude) (hnumber : (under passed t).isNumber) :
    (t.natural = .long ∧
        ∀ value, (under passed t).value? = some value → ∃ s, value = .double (.infinite s)) ∨
      (t.natural = .hex ∨ t.natural = .octal) ∧ ¬ (under passed t).CastsTo target .long top := by
  fun_induction groupedInteger? t generalizing i passed top with
  | case1 id rule span k token hliteral =>
    cases h
    obtain ⟨hnatural, token', htext, hkind, hlexed⟩ := hroot.token_of_grouped ht hliteral.1
    rw [under_literal hliteral.1]
    by_cases hrule : rule = .integerLiteral
    · subst hrule
      refine .inl ⟨hnatural, fun value h => ?_⟩
      rw [value?, show Tree.natural _ = .long from hnatural,
        SignedInteger.number_of_long htext hkind hlexed hliteral.2 hlong] at h
      exact ⟨false, (Option.some.inj h).symm⟩
    · have heq := SignedInteger.number_of_short hliteral.1 htext hkind hlexed hliteral.2 (.inr hrule)
      refine .inr ⟨?_, ?_⟩
      · rw [hnatural]
        rcases SignedInteger.eq_of_mem_rules hliteral.1 with rfl | rfl | rfl
        · exact absurd rfl hrule
        · exact .inl rfl
        · exact .inr rfl
      · rintro ⟨value, written, hvalue, hcanonical, -⟩
        rw [htop, hnatural, heq] at hvalue
        cases hvalue
        have herror : Literal.canonical (.int (SignedInteger.magnitude ⟨[], rule, token.text⟩)) .long =
            .error .tooManyDigits := Number.numeral_of_le hlong
        rw [herror] at hcanonical
        cases hcanonical
  | case2 => cases h
  | case3 =>
    rw [under_parenthesis] at hnumber
    cases hnumber
  | case4 id rule span k r sp cs hno hrule ih =>
    rw [under_wrapper hrule rfl] at hnumber ⊢
    rw [natural_wrapper (.inl hrule) rfl] at htop ⊢
    exact ih _ htop (mem_nodes_trans ht
      (mem_nodes_of_mem_children (.head _) (self_mem_nodes rfl))) h hlong hnumber
  | case5 => cases h
  | case6 id rule span k sign operand hrule ih =>
    obtain ⟨rfl, -⟩ := hrule
    obtain ⟨m, hm, rfl⟩ := Option.map_eq_some_iff.1 h
    have hnode := isNode_of_groupedInteger? hm
    rw [under_sign] at hnumber ⊢
    rw [natural_sign hnode]
    refine (ih [] rfl (mem_nodes_trans ht (mem_nodes_of_mem_children
      (.tail _ (.head _)) (self_mem_nodes hnode))) hm hlong hnumber).imp_left (And.imp_right fun hall value h => ?_)
    obtain ⟨inner, hinner, hsign⟩ := Option.bind_eq_some_iff.1 h
    obtain ⟨s, rfl⟩ := hall inner hinner
    split at hsign
    · exact ⟨!s, (Option.some.inj hsign).symm⟩
    · split at hsign
      · cases hsign
      · exact ⟨s, (Option.some.inj hsign).symm⟩
  | case7 => cases h
  | case8 => cases h

end Signed

/-! ## Calls -/

theorem Tree.Formed.takes_of_grouped (hroot : root.Formed) (htarget : target ∈ Target.all)
    (ht : t ∈ root.nodes) (h : t.groupedInteger? = some i) (hshort : i.IsShort) :
    ArgumentsFit target ValueType.int64Class.parameters [t] := by
  have hslot : ∀ type ∈ SignedInteger.types, (Slot.optional [.long, .string]).admits type ∨
      type.isNumeric ∧ (Slot.optional [.long, .string]).numeric? = some .long := by decide
  obtain ⟨-, hnatural⟩ := hroot.settled_of_grouped default htarget ht h hshort
  refine ⟨?_, nofun⟩
  rcases hslot t.natural hnatural with hadmits | ⟨hnumeric, hlong⟩
  · exact .inl hadmits
  · exact .inr ⟨hnumeric, .long, hlong, Signed.castsTo_under [] hroot htarget rfl ht h hshort⟩

/-- A call for a 64-bit integer, by the value of its argument: it ends in a text if the argument has
parentheses or its value fits, else in a failure that tells the value, if it can be told. -/
theorem Renderer.ends_int64Call {r : Renderer} {b : Bool} {j : Journal} {arg : Tree}
    (h : r.Stands root b t) (hcall : t.isOf .functionCall) (htarget : r.target ∈ Target.all)
    (htype : t.calleeType = .int64Class) (hargs : t.callArguments = [arg])
    (hinteger : arg.groupedInteger? = some i) (hshort : i.IsShort)
    (hj : Coherent r.target root j.notes.mark) (text : String) :
    Ends (Coherent r.target root)
      (fun fault => ¬ ((∃ s ∈ arg.nodes, s.isOf .setLiteral) ∨
        -2 ^ 63 ≤ i.value ∧ i.value ≤ 2 ^ 63 - 1) ∧ fault = .showing (.int i.value) .int64Range)
      (r.numberCall b ⟨t.calleeType, text⟩ t) j fun _ m => m.Typed t ∧
        ((∃ s ∈ arg.nodes, s.isOf .setLiteral) ∨ -2 ^ 63 ≤ i.value ∧ i.value ≤ 2 ^ 63 - 1) := by
  have hroot := h.formed
  have harg : arg ∈ root.nodes := mem_nodes_trans h.mem (mem_nodes_of_mem_parts
    (hroot.mem_parts_of_mem_callArguments h.mem hcall (by rw [hargs]; exact .head _)))
  obtain ⟨hsettled, hnatural⟩ := hroot.settled_of_grouped _ htarget harg hinteger hshort
  have hstring : arg.natural ≠ .string := fun hno => by rw [hno] at hnatural; revert hnatural; decide
  have hview := Signed.isNumber_under [] hinteger
  have hvalue := Signed.value?_under [] hroot htarget harg hinteger hshort
  rw [numberCall, Render.typeNamed_resultName, pure_bind]
  refine ends_prepared_of_ready h hcall (by
      rw [hargs]
      exact forall_mem_singleton.2 (hsettled.ready (Target.marked_of_mem htarget) b))
    (by rw [htype, hargs]; exact hroot.takes_of_grouped htarget harg hinteger hshort) rfl rfl hj
    fun texts k hk htyped hwritten => ?_
  have hwrote := hwritten.wrote arg (by rw [hargs]; exact .head _)
  have hspelled := hwritten.spelled
  rw [hargs] at hspelled ⊢
  cases hspelled with
  | @cons _ text _ texts _ hrest =>
    refine .bind (.ownNatural hk (hwrote.written arg (.refl arg)).1 (hwrote.typed arg (.refl arg)))
      fun own k₁ hk₁ hown => ?_
    subst hown
    dsimp only
    rw [htype, if_neg (by simp [hstring])]
    split
    · rename_i htest
      have hnumber : (Signed.ofTree arg).isNumber := by simpa using htest
      refine .bind (ends_numericValue hroot (hwrote.after hk₁) (.of_holds trivial _)
        (fun _ => by rw [number?, Signed.ofTree, hvalue hnumber]; rfl) hk₁.keeps)
        fun value k₂ hk₂ heq => ?_
      obtain rfl : Number.int i.value = value := by
        rw [number?, Signed.ofTree, hvalue hnumber] at heq
        exact Option.some.inj heq
      rw [discard_bind, Literal.int64_int]
      split
      · rename_i hrange
        exact .bind (.pure (Q := fun _ _ => True) hk₂.keeps trivial) fun _ k₃ hk₃ _ =>
          .bind (.pure (Q := fun _ _ => True) hk₃.keeps trivial) fun _ k₄ hk₄ _ =>
            .pure hk₄.keeps ⟨(((htyped.after hk₁).after hk₂).after hk₃).after hk₄, .inr hrange⟩
      · rename_i hrange
        have hplain : ¬ ∃ s ∈ arg.nodes, s.isOf .setLiteral := by
          simpa using hview.1 hnumber
        exact .bind (.throw (Q := fun _ _ => False) hk₂.keeps ⟨fun hno => hno.elim hplain hrange, rfl⟩)
          fun _ _ _ hno => hno.elim
    · rename_i htest
      have hnumber : ¬ (Signed.ofTree arg).isNumber := by simpa using htest
      have hgrouped : ∃ s ∈ arg.nodes, s.isOf .setLiteral := by
        simpa using mt hview.2 hnumber
      exact .bind (.pure (Q := fun _ _ => True) hk₁.keeps trivial) fun _ k₂ hk₂ _ =>
        .pure hk₂.keeps ⟨(htyped.after hk₁).after hk₂, .inl hgrouped⟩

/-- A 64-bit integer is checked for its range, unless it is in parentheses. For the known targets, a call
with a literal below `10^4300`, under signs, parentheses and wrappings, compiles exactly if there are
parentheses or the value fits into 64 bits; else it fails, with the value in the message, because a
literal cannot be evaluated, or without a message if the value itself is not below `10^4300`. A greater
literal without parentheses does not compile. -/
theorem compile_int64_iff {options : Options} {source : String} {call arg : Tree}
    (htarget : target ∈ Target.all) (hparse : parse source = .ok root)
    (hlength : options.exceeded source.length = none)
    (hprogram : root.children.map wrapped = [call]) (hcall : call.isCallOf "Int64")
    (hargs : call.callArguments = [arg]) (hinteger : arg.groupedInteger? = some i) :
    (i.magnitude < 10 ^ Numeral.maxDigits →
      ((∃ output, compile target options source = .ok output) ↔
        (∃ s ∈ arg.nodes, s.isOf .setLiteral) ∨ -2 ^ 63 ≤ i.value ∧ i.value ≤ 2 ^ 63 - 1) ∧
      ((∀ output, compile target options source ≠ .ok output) →
        (i.value.natAbs < 10 ^ Numeral.maxDigits →
          ∃ f : Failure, compile target options source = .error (.failure f) ∧
            f.kind = .evaluation ∧ f.cause = .int64Range (Numeral.decimal i.value)) ∧
        (10 ^ Numeral.maxDigits ≤ i.value.natAbs →
          compile target options source = .error (.conversion .tooManyDigits)))) ∧
    (10 ^ Numeral.maxDigits ≤ i.magnitude → (∀ s ∈ arg.nodes, s.isOf .setLiteral = false) →
      ∀ output, compile target options source ≠ .ok output) := by
  have hroot := formed_of_parse hparse
  have hof := (Bool.and_eq_true_iff.1 hcall).1
  obtain ⟨s, rfl, -, hs, hvisited⟩ := exists_of_map_wrapped hparse hprogram
  have hsymbol : ValueType.ofSymbol? "Int64" = some .int64Class := by decide
  obtain ⟨htype, hnamed⟩ := hroot.callee_of_isCallOf
    (mem_nodes_trans hs (wrapped_mem_nodes (isNode_of_isVisited hvisited))) hcall hsymbol
  refine ⟨fun hshort => ?_, fun hlong hplain output hok => ?_⟩
  · rcases compile_of_call htarget hparse hlength hprogram hof (by rw [htype]; rfl)
      (fun callee hcallee => exec_render_of_isNamed (Target.ends_of_mem htarget).1 hsymbol
        (hnamed callee hcallee) {})
      fun r k hr h hk => Renderer.ends_int64Call h hof (by
        rw [show r.target = target from congrArg Setting.target hr]
        exact htarget) htype hargs hinteger hshort hk _ with
      ⟨text, imports, hyes, hok⟩ | ⟨fault, ⟨hno, rfl⟩, herror⟩
    · exact ⟨⟨fun _ => hyes, fun _ => ⟨_, hok⟩⟩, fun hno => absurd hok (hno _)⟩
    · refine ⟨⟨?_, fun hyes => absurd hyes hno⟩, fun _ => ?_⟩
      · rintro ⟨output, hok⟩
        rw [herror] at hok
        cases hok
      · rw [Fault.showing, Number.write] at herror
        refine ⟨fun hsmall => ?_, fun hlarge => ?_⟩
        · rw [Number.numeral_of_lt hsmall] at herror
          exact ⟨_, herror, rfl, rfl⟩
        · rwa [Number.numeral_of_le hlarge] at herror
  · have hfits := callFits_of_compile htarget hparse hprogram hof hok
    rw [htype, hargs] at hfits
    obtain ⟨⟨htakes, -⟩, hfits⟩ := hfits
    have hmem := mem_nodes_trans hs (wrapped_mem_nodes (isNode_of_isVisited hvisited))
    have harg := mem_nodes_trans hmem (mem_nodes_of_mem_parts
      (hroot.mem_parts_of_mem_callArguments hmem hof (by rw [hargs]; exact .head _)))
    have hnumber := (Signed.isNumber_under [] hinteger).2 hplain
    rcases Signed.infinite_or_not_castsTo target [] hroot rfl harg hinteger hlong hnumber with
      ⟨hnatural, hinfinite⟩ | ⟨hbase, hcasts⟩
    · have hchecked := hfits rfl arg rfl
      rw [if_neg (by rw [hnatural]; decide)] at hchecked
      obtain ⟨value, hvalue, hinRange⟩ := hchecked hnumber
      obtain ⟨s, rfl⟩ := hinfinite value hvalue
      cases hinRange
    · rcases htakes with hadmits | ⟨-, type, htype, htakes⟩
      · rcases hbase with hbase | hbase
        all_goals
          rw [hbase] at hadmits
          revert hadmits
          decide
      · obtain rfl : ValueType.long = type := Option.some.inj htype
        exact hcasts htakes

/-- A hexadecimal literal below two signs, whose value is one too large. -/
theorem compile_int64_signed_hex : ∃ f : Failure,
    compile .java {} "Int64(-~0x7fff_ffff_ffff_ffff)" = .error (.failure f) ∧ f.kind = .evaluation ∧
      f.cause = .int64Range "9223372036854775808" := by
  have h : ∃ root ∈ (parse "Int64(-~0x7fff_ffff_ffff_ffff)").toOption,
      root.children.length = 1 ∧ ∃ call ∈ root.children.map wrapped, call.isCallOf "Int64" ∧
        call.callArguments.length = 1 ∧ ∃ arg ∈ call.callArguments,
          arg.groupedInteger? = some ⟨["-", "~"], .hexLiteral, "0x7fff_ffff_ffff_ffff"⟩ ∧
            ∀ s ∈ arg.nodes, s.isOf .setLiteral = false := by decide +kernel
  obtain ⟨root, hroot, hlength, call, hcall, hof, hlength', arg, harg, hinteger, hplain⟩ := h
  obtain ⟨i, hi⟩ : ∃ i, i = SignedInteger.mk ["-", "~"] .hexLiteral "0x7fff_ffff_ffff_ffff" := ⟨_, rfl⟩
  rw [← hi] at hinteger
  have hprogram := eq_singleton_of_mem ((List.length_map wrapped).trans hlength) hcall
  have hargs := eq_singleton_of_mem hlength' harg
  have htarget : Target.java ∈ Target.all := List.mem_cons_self
  have hlimit : ({} : Options).exceeded "Int64(-~0x7fff_ffff_ffff_ffff)".length = none := rfl
  have hvalue : i.value = 9223372036854775808 := by rw [hi]; decide +kernel
  have hshort : i.magnitude < 10 ^ Numeral.maxDigits := by
    rw [hi]
    refine lt_of_lt_of_le (b := 10 ^ 20) (by decide +kernel) ?_
    exact Nat.pow_le_pow_right (by decide) (by decide)
  have hcompile := (compile_int64_iff htarget (eq_ok_of_mem_toOption hroot) hlimit hprogram hof hargs
    hinteger).1 hshort
  have hsmall : i.value.natAbs < 10 ^ Numeral.maxDigits := by
    rw [hvalue]
    refine lt_of_lt_of_le (b := 10 ^ 20) (by decide) ?_
    exact Nat.pow_le_pow_right (by decide) (by decide)
  obtain ⟨f, herror, hkind, hcause⟩ := (hcompile.2 fun output hok => by
    rcases hcompile.1.1 ⟨output, hok⟩ with ⟨s, hs, hset⟩ | hrange
    · rw [hplain s hs] at hset
      cases hset
    · omega).1 hsmall
  rw [hvalue] at hcause
  exact ⟨f, herror, hkind, hcause.trans (by decide +kernel)⟩

/-- In parentheses a literal that is too large gets through. -/
theorem compile_int64_parenthesis :
    ((compile .java {} "Int64((9223372036854775808))").map (·.code)).toOption =
        some "(9223372036854775808L)" ∧
      ∃ root ∈ (parse "Int64((9223372036854775808))").toOption,
        ∃ call ∈ root.children.map wrapped, call.isCallOf "Int64" ∧
          call.callArguments.map (·.groupedInteger?.map (·.value)) = [some (2 ^ 63)] := by
  decide +kernel

end QueryScribe
