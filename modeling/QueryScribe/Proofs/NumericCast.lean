import QueryScribe.Proofs.Writing.Visit
import QueryScribe.Target

/-!
# Integers that are written as another type

An integer literal may stand below signs and nodes that only wrap it (`Tree.signedInteger?`). Where a slot asks
for another integer type, it is written by its value alone: the signs as they are, and the literal anew
in the type that was asked for. Two recursions over the same nodes have to agree on this. A visit leaves
the type of the literal on every node (`render_integer`). The cast reads the literal in the type that is
noted first on the way down and then overwrites the types from the bottom up; what it needs of the
notes is that each node still tells the type of the literal (`Owned`), and this is kept by every cast
(`castSigned_integer`). The value is found in the same notes (`signedValue_integer`).
-/

namespace QueryScribe

open List

open Render Renderer QueryScribe.Tree

/-- An integer literal with the signs before it. -/
structure SignedInteger where
  signs : List String
  /-- The rule of the literal. -/
  rule : Rule
  text : String
deriving DecidableEq, Repr

namespace SignedInteger

/-- The rules of decimal, hexadecimal and octal integers. -/
def rules : List Rule := [.integerLiteral, .hexLiteral, .octLiteral]

/-- The signs that may stand before an operand. -/
def allSigns : List String := ["+", "-", "~"]

/-- The type of the literal. -/
def type (i : SignedInteger) : ValueType :=
  match i.rule with
  | .hexLiteral => .hex
  | .octLiteral => .octal
  | _ => .long

/-- The base of the literal. -/
def base (i : SignedInteger) : Nat :=
  match i.rule with
  | .hexLiteral => 16
  | .octLiteral => 8
  | _ => 10

/-- The digits of the literal, without the mark of its base and without underscores. -/
def digits (i : SignedInteger) : List Char :=
  (i.text.toList.drop (if i.rule = .integerLiteral then 0 else 2)).filter (· ≠ '_')

/-- The number that the digits write. -/
def magnitude (i : SignedInteger) : Nat := Numeral.positional i.base i.digits

/-- What a sign makes of a number. -/
def applySign (sign : String) (n : Int) : Int :=
  if sign = "-" then -n else if sign = "~" then ~~~n else n

/-- The number under all of its signs. -/
def value (i : SignedInteger) : Int := i.signs.foldr applySign i.magnitude

/-- The number with one more sign before it. -/
def under (i : SignedInteger) (sign : String) : SignedInteger := { i with signs := sign :: i.signs }

theorem not_eq_neg_sub_one (n : Int) : ~~~n = -n - 1 := by
  cases n with
  | ofNat n =>
    change Int.negSucc n = _
    simp only [Int.negSucc_eq, Int.ofNat_eq_natCast]
    omega
  | negSucc n =>
    change Int.ofNat n = _
    simp only [Int.negSucc_eq, Int.ofNat_eq_natCast]
    omega

@[simp]
theorem type_under (i : SignedInteger) (sign : String) : (i.under sign).type = i.type := rfl

@[simp]
theorem value_under (i : SignedInteger) (sign : String) :
    (i.under sign).value = applySign sign i.value := rfl

theorem eq_of_mem_rules {rule : Rule} (h : rule ∈ rules) :
    rule = .integerLiteral ∨ rule = .hexLiteral ∨ rule = .octLiteral := by simpa [rules] using h

end SignedInteger

/-- A node as an integer literal below signs and wrappings. -/
def Tree.signedInteger? : Tree → Option SignedInteger
  | node _ rule _ [leaf _ token] =>
    if rule ∈ SignedInteger.rules then some ⟨[], rule, token.text⟩ else none
  | node _ rule _ [node i r s cs] => if rule.isWrapper then signedInteger? (node i r s cs) else none
  | node _ rule _ [leaf _ sign, operand] =>
    if rule = .factor ∧ sign.text ∈ SignedInteger.allSigns then (signedInteger? operand).map (·.under sign.text)
    else none
  | _ => none

variable {target : Target} {input : Source} {b : Bool} {t : Tree} {i : SignedInteger}
  {j k : Journal} {own type : ValueType} {written : String}

/-! ## The visit -/

/-- No node is noted as anything but of a type. -/
def Journal.Bare (own : ValueType) (j : Journal) : Prop :=
  ∀ n, j.notes.mark n = ⟨none, none⟩ ∨ j.notes.mark n = ⟨some own, none⟩

theorem Journal.Bare.setType (h : j.Bare own) (t : Tree) :
    ∃ k, exec (Render.setType t own) j = (.ok (), k) ∧ k.Bare own ∧
      ∀ n, n = t.id ∨ j.notes.mark n = ⟨some own, none⟩ → k.notes.mark n = ⟨some own, none⟩ := by
  refine ⟨_, rfl, fun n => ?_, fun n hn => ?_⟩
  · dsimp only
    rw [Notes.mark_setType]
    split
    · rcases h n with hn | hn
      · exact .inr (by rw [hn]; rfl)
      · exact .inr (by rw [hn]; rfl)
    · exact h n
  · dsimp only
    rw [Notes.mark_setType]
    split
    · rcases h n with hn | hn
      · rw [hn]; rfl
      · rw [hn]; rfl
    · rename_i hne
      exact hn.resolve_left hne

theorem exec_typeOf_of_mark (h : j.notes.mark t.id = ⟨some own, none⟩) :
    exec (Render.typeOf t) j = (.ok own, j) := by
  rw [exec_typeOf, Notes.type?_eq_of_mark (congrArg Mark.type h)]

theorem Journal.Bare.typed {c : Tree} (h : k.Bare own)
    (hc : ∀ s ∈ c.nodes, k.notes.mark s.id = ⟨some own, none⟩) (hnode : c.isNode) (t : Tree)
    (hnodes : ∀ s ∈ t.nodes, s = t ∨ s ∈ c.nodes) :
    ∃ l, (∀ m : Render String, exec (do Render.setType t (← Render.typeOf c); m) k = exec m l) ∧
      l.Bare own ∧ ∀ s ∈ t.nodes, l.notes.mark s.id = ⟨some own, none⟩ := by
  obtain ⟨l, hset, hbare, hmark⟩ := h.setType t
  refine ⟨l, fun m => ?_, hbare, fun s hs => hmark _ ?_⟩
  · rw [exec_bind, exec_typeOf_of_mark (hc c (self_mem_nodes hnode))]
    dsimp only
    rw [exec_bind, hset]
  · rcases hnodes s hs with rfl | hs
    · exact .inl rfl
    · exact .inr (hc s hs)

variable {r : Renderer}

theorem exec_simpleLiteral {token : Token} (htoken : t.firstToken? = some token)
    (hwritten : r.target.writeLiteral own token.text = .ok written) (hj : j.Bare own) :
    ∃ k, exec (r.simpleLiteral t own) j = (.ok written, k) ∧ k.Bare own ∧
      k.notes.mark t.id = ⟨some own, none⟩ := by
  obtain ⟨k, hset, hbare, hmark⟩ := hj.setType t
  refine ⟨{ k with notes := k.notes.touch own.code }, ?_, hbare, hmark _ (.inl rfl)⟩
  rw [simpleLiteral, exec_bind, hset]
  dsimp only
  rw [exec_bind, use, touch, exec_note, htoken]
  dsimp only
  rw [literal, hwritten]
  rfl

theorem Tree.nodes_leaf (n : Nat) (token : Token) : (leaf n token).nodes = [] := by rw [nodes]

/-- A visit writes the literal in its own type, after the signs, and leaves this type on all nodes. -/
theorem render_integer (input : Source) (b : Bool) (h : t.signedInteger? = some i)
    (hwritten : target.writeLiteral i.type i.text = .ok written) (hj : j.Bare i.type) :
    ∃ k, exec (render target input b t) j = (.ok (String.join i.signs ++ written), k) ∧
      k.Bare i.type ∧ ∀ s ∈ t.nodes, k.notes.mark s.id = ⟨some i.type, none⟩ := by
  fun_induction signedInteger? t generalizing i with
  | case1 id rule span n token hrule =>
    cases h
    have hliteral : render target input b (.node id rule span [.leaf n token]) =
        (below target input (.node id rule span [.leaf n token])).simpleLiteral
          (.node id rule span [.leaf n token]) (SignedInteger.type ⟨[], rule, token.text⟩) := by
      rw [render_eq_step]
      rcases SignedInteger.eq_of_mem_rules hrule with rfl | rfl | rfl <;> rfl
    obtain ⟨k, hexec, hbare, hmark⟩ := exec_simpleLiteral (t := .node id rule span [.leaf n token])
      (r := below target input (.node id rule span [.leaf n token])) rfl
      (by rwa [below, target_within]) hj
    refine ⟨k, ?_, hbare, fun s hs => ?_⟩
    · rw [hliteral, hexec]
      simp
    · obtain rfl : s = .node id rule span [.leaf n token] := by
        simpa [mem_nodes_node, nodes_leaf] using hs
      exact hmark
  | case2 => cases h
  | case3 id rule span n r sp cs hrule ih =>
    obtain ⟨k, hvisit, hbare, hmark⟩ := ih h hwritten hj
    obtain ⟨l, htyped, hbare', hmark'⟩ := hbare.typed hmark rfl
      (.node id rule span [.node n r sp cs]) (fun s hs => by simpa [mem_nodes_node] using hs)
    refine ⟨l, ?_, hbare', hmark'⟩
    rw [render_eq_step, step, ofRule_of_isWrapper hrule rfl,
      collapse]
    dsimp only [children]
    rw [exec_bind, visit_below b (.head _), hvisit]
    exact htyped (pure _)
  | case4 => cases h
  | case5 id rule span n sign operand hrule ih =>
    obtain ⟨rfl, -⟩ := hrule
    obtain ⟨i', hi', rfl⟩ := Option.map_eq_some_iff.1 h
    obtain ⟨k, hvisit, hbare, hmark⟩ := ih hi' hwritten hj
    have hnode : operand.isNode := by
      cases operand with
      | leaf => cases hi'
      | node => rfl
    obtain ⟨l, htyped, hbare', hmark'⟩ := hbare.typed hmark hnode
      (.node id .factor span [.leaf n sign, operand])
      (fun s hs => by simpa [mem_nodes_node, nodes_leaf] using hs)
    refine ⟨l, ?_, hbare', hmark'⟩
    have hsign : render target input b (.node id .factor span [.leaf n sign, operand]) =
        (below target input (.node id .factor span [.leaf n sign, operand])).sign b
          (.node id .factor span [.leaf n sign, operand]) := by
      rw [render_eq_step]
      rfl
    rw [hsign, Renderer.sign]
    dsimp only [children]
    rw [exec_bind, visit_below b (.tail _ (.head _)), hvisit]
    refine (htyped (pure _)).trans ?_
    simp [SignedInteger.under, String.append_assoc]
  | case6 => cases h
  | case7 => cases h

/-! ## The cast -/

/-- A mark that tells the type that its node had at first. -/
def Mark.Owned (own : ValueType) (m : Mark) : Prop := m.own.or m.type = some own

theorem Mark.Owned.cast {m : Mark} (h : m.Owned own) (type : ValueType) :
    (m.cast type own).Owned own := by
  unfold Owned Mark.cast at *
  cases hown : m.own with
  | none => rfl
  | some own' => rwa [hown] at h

theorem exec_ownTypeOf_of_mark (h : (j.notes.mark t.id).Owned own) :
    exec (ownTypeOf t) j = (.ok own, j) := by
  rw [exec_ownTypeOf, Notes.ownType?_eq_of_mark h]

/-- Casts of nodes to a type: what the nodes were at first is kept, and those that are cast have the
type, as have those that had it before. -/
theorem exec_castAll (passed : List Tree) (type own : ValueType) (j : Journal) :
    ∃ k, exec (castAll passed type own) j = (.ok (), k) ∧
      (∀ n, (j.notes.mark n).Owned own → (k.notes.mark n).Owned own) ∧
        ∀ n, n ∈ passed.map Tree.id ∨ (j.notes.mark n).type = some type →
          (k.notes.mark n).type = some type := by
  induction passed generalizing j with
  | nil => exact ⟨j, rfl, fun _ h => h, fun _ h => h.resolve_left nofun⟩
  | cons p passed ih =>
    obtain ⟨k, hexec, howned, htype⟩ := ih { j with notes := j.notes.cast p type own }
    dsimp only at howned htype
    refine ⟨k, ?_, fun n hn => howned n ?_, fun n hn => htype n ?_⟩
    · rw [castAll_cons, exec_bind, exec_note]
      exact hexec
    · rw [Notes.mark_cast]
      split
      · exact hn.cast type
      · exact hn
    · rw [Notes.mark_cast]
      split
      · exact .inr rfl
      · rename_i hne
        simpa [hne] using hn

section Views

variable {passed : List Tree} {id n : Nat} {rule : Rule} {span : Span} {token : Token} {c : Tree}

theorem Signed.under_literal (hrule : rule ∈ SignedInteger.rules) :
    under passed (.node id rule span [.leaf n token]) =
      literal (passed ++ [.node id rule span [.leaf n token]]) (.node id rule span [.leaf n token])
        token.text := by
  rcases SignedInteger.eq_of_mem_rules hrule with rfl | rfl | rfl <;> rfl

theorem Signed.under_wrapper (hrule : rule.isWrapper) (hc : c.isNode) :
    under passed (.node id rule span [c]) = under (passed ++ [.node id rule span [c]]) c := by
  cases c with
  | leaf => cases hc
  | node =>
    cases rule
    all_goals first | rfl | cases hrule

theorem Signed.under_sign :
    under passed (.node id .factor span [.leaf n token, c]) =
      signed (passed ++ [.node id .factor span [.leaf n token, c]]) token.text c (under [] c) :=
  rfl

end Views

theorem Tree.isNode_of_signedInteger? (h : t.signedInteger? = some i) : t.isNode := by
  cases t with
  | leaf => cases h
  | node => rfl

/-- The cast of an integer writes its signs and the literal anew. The node at the top of the view tells
in which type the literal is read; all nodes that are passed get the type that is asked for. -/
theorem castSigned_integer {top : Tree} {canonical : String} (passed : List Tree)
    (h : t.signedInteger? = some i) (hnumber : Literal.number i.text i.type = .ok (.int i.magnitude))
    (hcanonical : Literal.canonical (.int i.magnitude) type = .ok canonical)
    (hwritten : r.target.writeLiteral type canonical = .ok written)
    (htop : (j.notes.mark top.id).Owned i.type)
    (hnodes : ∀ s ∈ t.nodes, (j.notes.mark s.id).Owned i.type) :
    ∃ k, exec (r.castSigned b type top (.under passed t)) j = (.ok (String.join i.signs ++ written), k) ∧
      (∀ n, (j.notes.mark n).Owned i.type → (k.notes.mark n).Owned i.type) ∧
        ∀ p ∈ passed ++ [t], (k.notes.mark p.id).type = some type := by
  fun_induction signedInteger? t generalizing i passed top j with
  | case1 id rule span n token hrule =>
    cases h
    obtain ⟨k, hcast, howned, htype⟩ := exec_castAll (passed ++ [.node id rule span [.leaf n token]])
      type (SignedInteger.type ⟨[], rule, token.text⟩) { j with notes := j.notes.touch type.code }
    refine ⟨k, ?_, howned, fun p hp => htype _ (.inl (mem_map_of_mem hp))⟩
    rw [Signed.under_literal hrule, castSigned, exec_bind, exec_ownTypeOf_of_mark htop]
    dsimp only at hnumber hcanonical ⊢
    rw [hnumber]
    simp only [exec_bind, ofCause, exec_pure, use, touch, exec_note,
      hcanonical, ofConversion, literal, hwritten, ofFault, hcast]
    simp
  | case2 => cases h
  | case3 id rule span n r' sp cs hrule ih =>
    have hmem : ∀ s ∈ (node n r' sp cs).nodes,
        s ∈ (node id rule span [.node n r' sp cs]).nodes :=
      fun s hs => mem_nodes_node.2 (.inr ⟨_, .head _, hs⟩)
    rw [Signed.under_wrapper hrule rfl]
    obtain ⟨k, hexec, howned, htype⟩ := ih (passed ++ [.node id rule span [.node n r' sp cs]])
      h hnumber hcanonical htop fun s hs => hnodes s (hmem s hs)
    exact ⟨k, hexec, howned, fun p hp => htype p (mem_append_left _ hp)⟩
  | case4 => cases h
  | case5 id rule span n sign operand hrule ih =>
    obtain ⟨rfl, -⟩ := hrule
    obtain ⟨i', hi', rfl⟩ := Option.map_eq_some_iff.1 h
    have hmem : ∀ s ∈ operand.nodes, s ∈ (node id .factor span [.leaf n sign, operand]).nodes :=
      fun s hs => mem_nodes_node.2 (.inr ⟨_, .tail _ (.head _), hs⟩)
    have hoperand := hnodes operand (hmem _ (self_mem_nodes (isNode_of_signedInteger? hi')))
    obtain ⟨k, hexec, howned, -⟩ := ih [] hi' hnumber hcanonical hoperand
      fun s hs => hnodes s (hmem s hs)
    obtain ⟨l, hcast, howned', htype⟩ :=
      exec_castAll (passed ++ [.node id .factor span [.leaf n sign, operand]]) type i'.type k
    refine ⟨l, ?_, fun m hm => howned' m (howned m hm),
      fun p hp => htype _ (.inl (mem_map_of_mem hp))⟩
    rw [Signed.under_sign, castSigned, exec_bind, exec_ownTypeOf_of_mark htop]
    dsimp only
    rw [exec_bind, hexec]
    dsimp only
    rw [exec_bind, SignedInteger.type_under, hcast]
    simp [SignedInteger.under, String.append_assoc]
  | case6 => cases h
  | case7 => cases h

/-- The cast of a number that has no text in the type that is asked for ends in the fault. -/
theorem castSigned_of_fault {top : Tree} {value : Number} {fault : ConversionFault}
    (passed : List Tree) (h : t.signedInteger? = some i)
    (hnumber : Literal.number i.text i.type = .ok value)
    (hcanonical : Literal.canonical value type = .error fault)
    (htop : (j.notes.mark top.id).Owned i.type)
    (hnodes : ∀ s ∈ t.nodes, (j.notes.mark s.id).Owned i.type) :
    (exec (r.castSigned b type top (.under passed t)) j).1 = .error (.conversion fault) := by
  fun_induction signedInteger? t generalizing i passed top with
  | case1 id rule span n token hrule =>
    cases h
    rw [Signed.under_literal hrule, castSigned, exec_bind, exec_ownTypeOf_of_mark htop]
    dsimp only at hnumber ⊢
    rw [hnumber]
    simp only [exec_bind, ofCause, exec_pure, use, touch, exec_note, hcanonical, ofConversion,
      exec_throw]
  | case2 => cases h
  | case3 id rule span n r' sp cs hrule ih =>
    rw [Signed.under_wrapper hrule rfl]
    exact ih _ h hnumber htop fun s hs => hnodes s (mem_nodes_node.2 (.inr ⟨_, .head _, hs⟩))
  | case4 => cases h
  | case5 id rule span n sign operand hrule ih =>
    obtain ⟨rfl, -⟩ := hrule
    obtain ⟨i', hi', rfl⟩ := Option.map_eq_some_iff.1 h
    have hmem : ∀ s ∈ operand.nodes, s ∈ (node id .factor span [.leaf n sign, operand]).nodes :=
      fun s hs => mem_nodes_node.2 (.inr ⟨_, .tail _ (.head _), hs⟩)
    have hoperand := hnodes operand (hmem _ (self_mem_nodes (isNode_of_signedInteger? hi')))
    have hexec := ih [] hi' hnumber hoperand fun s hs => hnodes s (hmem s hs)
    rw [Signed.under_sign, castSigned, exec_bind, exec_ownTypeOf_of_mark htop]
    dsimp only
    rw [exec_bind]
    rcases hinner : exec (r.castSigned b type operand (.under [] operand)) j with ⟨result, k⟩
    rw [hinner] at hexec
    cases hexec
    rfl
  | case6 => cases h
  | case7 => cases h

/-! ## The value -/

/-- The value of an integer is that of its digits under its signs. -/
theorem signedValue_integer (top : Tree) (passed : List Tree) (h : t.signedInteger? = some i)
    (hnumber : Literal.number i.text i.type = .ok (.int i.magnitude))
    (hnodes : ∀ s ∈ t.nodes, (j.notes.mark s.id).Owned i.type) :
    exec (r.signedValue top (.under passed t)) j = (.ok (.int i.value), j) := by
  fun_induction signedInteger? t generalizing i passed top with
  | case1 id rule span n token hrule =>
    cases h
    have hself := hnodes _ (self_mem_nodes rfl)
    rw [Signed.under_literal hrule, signedValue, exec_bind, exec_ownTypeOf_of_mark hself]
    dsimp only at hnumber ⊢
    rw [hnumber]
    rfl
  | case2 => cases h
  | case3 id rule span n r' sp cs hrule ih =>
    rw [Signed.under_wrapper hrule rfl]
    exact ih _ _ h hnumber fun s hs =>
      hnodes s (mem_nodes_node.2 (.inr ⟨_, .head _, hs⟩))
  | case4 => cases h
  | case5 id rule span n sign operand hrule ih =>
    obtain ⟨rfl, -⟩ := hrule
    obtain ⟨i', hi', rfl⟩ := Option.map_eq_some_iff.1 h
    have hexec := ih operand [] hi' hnumber fun s hs => hnodes s
      (mem_nodes_node.2 (.inr ⟨_, .tail _ (.head _), hs⟩))
    rw [Signed.under_sign, signedValue, exec_bind, hexec, SignedInteger.value_under]
    dsimp only
    unfold SignedInteger.applySign
    split
    · rfl
    · split
      · rw [SignedInteger.not_eq_neg_sub_one]
        rfl
      · rfl
  | case6 => cases h
  | case7 => cases h

/-! ## Literals that were read -/

/-- The token of an integer in a tree that was read. -/
theorem Tree.Formed.exists_token_of_signedInteger? {root : Tree} (hroot : root.Formed)
    (ht : t ∈ root.nodes) (h : t.signedInteger? = some i) : i.rule ∈ SignedInteger.rules ∧
      ∃ token : Token, token.text = i.text ∧ token.kind ∈ i.rule.literalKinds ∧ token.Lexed := by
  fun_induction signedInteger? t generalizing i with
  | case1 id rule span n token hrule =>
    cases h
    have hkinds : rule.literalKinds ≠ [] ∧ rule.isVisited := by
      rcases SignedInteger.eq_of_mem_rules hrule with rfl | rfl | rfl <;> exact ⟨nofun, rfl⟩
    obtain ⟨m, token', hcs, hkind, hlexed⟩ :=
      (hroot.form_of_isVisited ht hkinds.2).exists_literal hkinds.1
    cases hcs
    exact ⟨hrule, token, rfl, hkind, hlexed⟩
  | case2 => cases h
  | case3 id rule span n r sp cs hrule ih =>
    exact ih (mem_nodes_trans ht (mem_nodes_node.2 (.inr ⟨_, .head _, self_mem_nodes rfl⟩))) h
  | case4 => cases h
  | case5 id rule span n sign operand hrule ih =>
    obtain ⟨i', hi', rfl⟩ := Option.map_eq_some_iff.1 h
    have hoperand : operand ∈ (node id rule span [leaf n sign, operand]).nodes :=
      mem_nodes_node.2 (.inr ⟨_, .tail _ (.head _),
        self_mem_nodes (isNode_of_signedInteger? hi')⟩)
    have htoken := ih (mem_nodes_trans ht hoperand) hi'
    exact htoken
  | case6 => cases h
  | case7 => cases h

theorem SignedInteger.number_eq (hrule : i.rule ∈ rules) {token : Token} (htext : token.text = i.text)
    (hkind : token.kind ∈ i.rule.literalKinds) (hlexed : token.Lexed) (hdigits : i.digits ≠ []) :
    Literal.number i.text i.type = .ok (Literal.integerValue i.rule i.digits) := by
  obtain ⟨signs, rule, text⟩ := i
  dsimp only at hrule htext hkind
  subst htext
  rcases eq_of_mem_rules hrule with rfl | rfl | rfl
  all_goals exact (hlexed.number_of_integer rfl hkind 0 0 ⟨0, 0⟩).2 hdigits

/-- The value of a literal is the number that its digits write, unless it is a decimal with too many. -/
theorem SignedInteger.integerValue_eq (hrule : i.rule ∈ rules) :
    Literal.integerValue i.rule i.digits = .int i.magnitude ∨
      Literal.integerValue i.rule i.digits = .double (.infinite false) ∧ i.rule = .integerLiteral ∧
        Numeral.maxDigits < i.digits.length := by
  unfold Literal.integerValue
  split
  · rename_i hlong
    exact .inr ⟨rfl, hlong⟩
  · obtain ⟨signs, rule, text⟩ := i
    rcases eq_of_mem_rules hrule with rfl | rfl | rfl
    all_goals exact .inl rfl

/-- A literal whose value has no more digits than there may be in a text has this value. -/
theorem SignedInteger.number_of_short (hrule : i.rule ∈ rules) {token : Token}
    (htext : token.text = i.text) (hkind : token.kind ∈ i.rule.literalKinds) (hlexed : token.Lexed)
    (hdigits : i.digits ≠ [])
    (hshort : i.magnitude < 10 ^ Numeral.maxDigits ∨ i.rule ≠ .integerLiteral) :
    Literal.number i.text i.type = .ok (.int i.magnitude) := by
  rw [number_eq hrule htext hkind hlexed hdigits]
  rcases integerValue_eq hrule with hvalue | ⟨-, heq, hlong⟩
  · rw [hvalue]
  · have hsmall := hshort.resolve_right fun h => h heq
    have hle := hlexed.le_positional_of_long (mem_singleton.1 (by rwa [heq] at hkind))
      (by rw [htext, ← heq]; exact hlong)
    have hmagnitude :
        i.magnitude = Numeral.positional 10 (Literal.digits .integerLiteral i.text) := by
      obtain ⟨signs, rule, text⟩ := i
      cases heq
      rfl
    rw [htext, ← hmagnitude] at hle
    exact absurd hsmall (not_lt.2 hle)

/-! ## The targets -/

theorem Target.java_writeLiteral_octal {text : String} {n : Int}
    (hnumber : Literal.number text .octal = .ok (.int n)) (hsmall : n.natAbs < 10 ^ Numeral.maxDigits) :
    Target.java.writeLiteral .octal text = .ok (Numeral.decimal n) := by
  have hwrite : (Number.int n).write = .ok (Numeral.decimal n) := by
    rw [Number.write, Number.numeral_of_lt hsmall]
  change ((Literal.number text .octal).mapError Fault.ofCause >>= fun n =>
    n.write.mapError Fault.conversion) = _
  rw [hnumber]
  exact congrArg (Except.mapError Fault.conversion) hwrite

/-- An integer is written by each target that is known, unless it has too many digits, and by all whose
literals never fail. -/
theorem exists_writeLiteral {text : String}
    (htarget : target ∈ Target.all ∨ ∀ type text, (target.writeLiteral type text).isOk)
    (htype : type ∈ SignedInteger.types)
    (hoctal : type = .octal → (∀ type text, (target.writeLiteral type text).isOk) ∨
      ∃ n : Int, Literal.number text .octal = .ok (.int n) ∧ n.natAbs < 10 ^ Numeral.maxDigits) :
    ∃ written, target.writeLiteral type text = .ok written := by
  have hok : ∀ {e : Except Fault String}, e.isOk → ∃ written, e = .ok written := by
    intro e he
    cases e with
    | error => cases he
    | ok written => exact ⟨written, rfl⟩
  simp only [SignedInteger.types, mem_cons, not_mem_nil, or_false] at htype
  simp only [Target.all, mem_cons, not_mem_nil, or_false] at htarget
  rcases htarget with (rfl | rfl) | htarget
  · -- Of the integer types only octal has a form that looks at the text.
    rcases htype with rfl | rfl | rfl | rfl
    · exact ⟨_, rfl⟩
    · exact ⟨_, rfl⟩
    · exact ⟨_, rfl⟩
    · rcases hoctal rfl with hwrites | ⟨n, hnumber, hsmall⟩
      · exact hok (hwrites _ _)
      · exact ⟨_, Target.java_writeLiteral_octal hnumber hsmall⟩
  · rcases htype with rfl | rfl | rfl | rfl <;> exact ⟨_, rfl⟩
  · exact hok (htarget type text)

/-! ## Slots for an integer type -/

theorem slot_of_type : ∀ type ∈ SignedInteger.types, ∀ own ∈ SignedInteger.types, type ≠ own →
    (Slot.of [type]).accepts own = false ∧ (Slot.of [type]).accepts .numeric = false ∧
      own.isNumeric ∧ (Slot.of [type]).numericName?.bind ValueType.ofName? = some type := by decide

theorem SignedInteger.type_mem (i : SignedInteger) : i.type ∈ types := by
  unfold type
  split <;> decide

/-- In a slot for another integer type a literal is visited, and then written as that type. -/
theorem exec_cast?_of_integer {root : Tree} {input : Source} {text : String} {k : Journal}
    (ht : t ∈ root.nodes) (htype : type ∈ SignedInteger.types) (hother : type ≠ i.type)
    (hvisit : exec (render target input b t) {} = (.ok text, k))
    (hmark : k.notes.mark t.id = ⟨some i.type, none⟩) :
    exec ((forTree target input root).cast? b (.of [type]) t) {} =
      exec (do return some (← (forTree target input root).castTo b type t)) k := by
  obtain ⟨haccepts, hnumeric, hown, hslot⟩ := slot_of_type type htype i.type i.type_mem hother
  obtain ⟨name, hname, hnamed⟩ := Option.bind_eq_some_iff.1 hslot
  have hvisit' : exec ((forTree target input root).visit b t) {} = (.ok text, k) := by
    rw [forTree, visit_within b (height_le_of_mem_nodes ht), hvisit]
  rw [cast?, exec_bind, hvisit']
  dsimp only
  rw [exec_bind, exec_typeOf_of_mark hmark]
  dsimp only
  rw [haccepts, hnumeric, hown, hname]
  dsimp only
  rw [Render.typeNamed, hnamed]
  rfl

/-- A literal that has no text in another integer type is not written in a slot for it. -/
theorem cast_of_fault {root : Tree} {value : Number} {fault : ConversionFault} {natural : String}
    (input : Source) (b : Bool) (ht : t ∈ root.nodes) (hinteger : t.signedInteger? = some i)
    (hnumber : Literal.number i.text i.type = .ok value)
    (hcanonical : Literal.canonical value type = .error fault)
    (htype : type ∈ SignedInteger.types) (hother : type ≠ i.type)
    (hnatural : target.writeLiteral i.type i.text = .ok natural) :
    (exec ((forTree target input root).cast? b (.of [type]) t) {}).1 = .error (.conversion fault) := by
  have hself : t ∈ t.nodes := self_mem_nodes (isNode_of_signedInteger? hinteger)
  obtain ⟨k, hvisit, -, hmarks⟩ := render_integer (j := {}) input b hinteger hnatural
    fun n => .inl (by simp [Notes.mark])
  have howned : ∀ s ∈ t.nodes, (k.notes.mark s.id).Owned i.type := fun s hs => by
    rw [hmarks s hs]
    rfl
  have hcast := castSigned_of_fault (r := forTree target input root) (b := b) [] hinteger hnumber
    hcanonical (howned t hself) howned
  rw [exec_cast?_of_integer ht htype hother hvisit (hmarks t hself), exec_bind, castTo, Signed.ofTree]
  rcases hexec : exec ((forTree target input root).castSigned b type t (.under [] t)) k with ⟨result, l⟩
  rw [hexec] at hcast
  cases hcast
  rfl

/-- A number is written as another type by its value alone. In a slot for an integer type that is not
the type of the literal, the signs are written as they are and the literal as the canonical text of the
number that its digits write in its base; the node then has the type of the slot, and still tells the
type of the literal; its value is the number under its signs. This goes for literals below `10^4300`,
and for all that are not decimals between types that are not either, if the target writes them as they
are. A greater number has no decimal text. -/
theorem cast_of_integer {source : String} {root : Tree} (hparse : parse source = .ok root)
    (ht : t ∈ root.nodes) (hinteger : t.signedInteger? = some i) (hdigits : i.digits ≠ [])
    (htype : type ∈ SignedInteger.types) (hother : type ≠ i.type)
    (htarget : target ∈ Target.all ∨ ∀ type text, (target.writeLiteral type text).isOk)
    (input : Source) (b : Bool) :
    ((i.magnitude < 10 ^ Numeral.maxDigits ∨ i.rule ≠ .integerLiteral ∧
        (type = .hex ∨ type = .octal) ∧ ∀ type text, (target.writeLiteral type text).isOk) →
      ∃ canonical written journal,
        Literal.canonical (.int i.magnitude) type = .ok canonical ∧
        target.writeLiteral type canonical = .ok written ∧
        exec ((forTree target input root).cast? b (.of [type]) t) {} =
          (.ok (some (String.join i.signs ++ written)), journal) ∧
        exec (Render.typeOf t) journal = (.ok type, journal) ∧
        exec (ownTypeOf t) journal = (.ok i.type, journal) ∧
        exec ((forTree target input root).numericValue t) journal =
          (.ok (.int i.value), journal)) ∧
    (10 ^ Numeral.maxDigits ≤ i.magnitude → type = .integer ∨ type = .long →
      (target.writeLiteral i.type i.text).isOk → ∃ fault,
        (exec ((forTree target input root).cast? b (.of [type]) t) {}).1 =
          .error (.conversion fault)) := by
  have hroot : root.Formed := formed_of_parse hparse
  obtain ⟨hrule, token, htext, hkind, hlexed⟩ := hroot.exists_token_of_signedInteger? ht hinteger
  have hliteral := SignedInteger.number_eq hrule htext hkind hlexed hdigits
  have hself : t ∈ t.nodes := self_mem_nodes (isNode_of_signedInteger? hinteger)
  have hblank : ({} : Journal).Bare i.type := fun n => .inl (by simp [Notes.mark])
  refine ⟨fun hsize => ?_, fun hlong hdecimal hnatural => ?_⟩
  · have hnumber := SignedInteger.number_of_short hrule htext hkind hlexed hdigits
      (hsize.imp_right And.left)
    have hoctal : i.type = .octal → (∀ type text, (target.writeLiteral type text).isOk) ∨
        ∃ n : Int, Literal.number i.text .octal = .ok (.int n) ∧
          n.natAbs < 10 ^ Numeral.maxDigits := by
      intro heq
      refine hsize.symm.imp (fun h => h.2.2) fun hsmall => ⟨_, heq ▸ hnumber, hsmall⟩
    obtain ⟨natural, hnatural⟩ := exists_writeLiteral htarget i.type_mem hoctal
    obtain ⟨canonical, hcanonical, hback⟩ := Literal.exists_number_of_canonical (n := i.magnitude)
      htype (hsize.elim (fun hsmall => .inr (.inr hsmall)) fun h =>
        h.2.1.imp_right .inl)
    obtain ⟨written, hwritten⟩ := exists_writeLiteral htarget htype fun heq => hsize.symm.imp (fun h => h.2.2) fun hsmall => ⟨_, heq ▸ hback, hsmall⟩
    -- The visit leaves the type of the literal on all nodes.
    obtain ⟨k, hvisit, -, hmarks⟩ := render_integer input b hinteger hnatural hblank
    have howned : ∀ s ∈ t.nodes, (k.notes.mark s.id).Owned i.type := fun s hs => by
      rw [hmarks s hs]
      rfl
    -- The cast overwrites them.
    obtain ⟨l, hcast, hkept, htyped⟩ := castSigned_integer (r := forTree target input root)
      (b := b) [] hinteger hnumber hcanonical (by rwa [forTree, target_within])
      (howned t hself) howned
    refine ⟨canonical, written, l, hcanonical, hwritten, ?_, ?_, ?_, ?_⟩
    · rw [exec_cast?_of_integer ht htype hother hvisit (hmarks t hself), exec_bind, castTo,
        Signed.ofTree, hcast]
      rfl
    · rw [exec_typeOf, Notes.type?_eq_of_mark (htyped t (by simp))]
    · exact exec_ownTypeOf_of_mark (hkept _ (howned t hself))
    · exact signedValue_integer t [] hinteger hnumber fun s hs => hkept _ (howned s hs)
  · obtain ⟨fault, hcanonical⟩ : ∃ fault,
        Literal.canonical (Literal.integerValue i.rule i.digits) type = .error fault := by
      rcases SignedInteger.integerValue_eq hrule with hvalue | ⟨hvalue, -⟩
      all_goals rw [hvalue]
      · refine ⟨.tooManyDigits, ?_⟩
        rcases hdecimal with rfl | rfl
        all_goals exact Number.numeral_of_le hlong
      · rcases hdecimal with rfl | rfl
        all_goals exact ⟨_, rfl⟩
    cases hwrite : target.writeLiteral i.type i.text with
    | error => rw [hwrite] at hnatural; cases hnatural
    | ok natural => exact ⟨fault, cast_of_fault input b ht hinteger hliteral hcanonical htype hother hwrite⟩

/-- A hexadecimal literal has a value, but no decimal text where this has too many digits. -/
theorem cast_of_long_hex :
    ∃ t i n, t.signedInteger? = some i ∧ Literal.number i.text i.type = .ok (.int n) ∧
      (exec ((forTree .java ⟨[], default⟩ t).cast? true (.of [.integer]) t) {}).1 =
        .error (.conversion .tooManyDigits) := by
  obtain ⟨n, hlong⟩ : ∃ n : Int, 10 ^ Numeral.maxDigits ≤ n.natAbs := by
    generalize 10 ^ Numeral.maxDigits = k
    exact ⟨k, (Int.natAbs_natCast k).ge⟩
  obtain ⟨text, -, hnumber⟩ := Literal.exists_number_of_canonical
    (by decide : ValueType.hex ∈ SignedInteger.types) (n := n) (.inl rfl)
  let t := node 0 .hexLiteral ⟨0, 0⟩ [.leaf 1 ⟨.hexNumber, text, ⟨0, 0⟩⟩]
  have hinteger : t.signedInteger? = some ⟨[], .hexLiteral, text⟩ := rfl
  exact ⟨t, _, n, hinteger, hnumber, cast_of_fault _ true (self_mem_nodes rfl) hinteger hnumber
    (Number.numeral_of_le hlong) (by decide) (by decide : ValueType.integer ≠ .hex) rfl⟩

/-- A hexadecimal literal under three signs, with underscores and digits of another script, in a slot
for a long integer. -/
theorem cast_of_signed_hex :
    ∃ root t, parse "f(-~ +0x1_٢F)" = .ok root ∧ t ∈ root.nodes ∧
      ∃ journal, exec ((forTree .java ⟨[], default⟩ root).cast? true (.of [.long]) t) {} =
          (.ok (some "-~+303L"), journal) ∧
        exec (ownTypeOf t) journal = (.ok .hex, journal) ∧
        exec ((forTree .java ⟨[], default⟩ root).numericValue t) journal =
          (.ok (.int 304), journal) := by
  have h : ∃ root ∈ (parse "f(-~ +0x1_٢F)").toOption, ∃ t ∈ root.nodes,
      t.signedInteger? = some ⟨["-", "~", "+"], .hexLiteral, "0x1_٢F"⟩ := by decide +kernel
  obtain ⟨root, hroot, t, ht, hinteger⟩ := h
  have hparse := eq_ok_of_mem_toOption hroot
  have hsmall : SignedInteger.magnitude ⟨["-", "~", "+"], .hexLiteral, "0x1_٢F"⟩ <
      10 ^ Numeral.maxDigits :=
    (by decide +kernel : _ < 10 ^ 3).trans_le (Nat.pow_le_pow_right (by decide) (by decide))
  obtain ⟨canonical, written, journal, hcanonical, hwritten, hcast, -, hown, hvalue⟩ :=
    (cast_of_integer hparse ht hinteger (by decide) (by decide : ValueType.long ∈ SignedInteger.types)
      (by decide) (.inl (by simp [Target.all]) : Target.java ∈ Target.all ∨ _) ⟨[], default⟩ true).1
        (.inl hsmall)
  obtain rfl : "303" = canonical := Except.ok.inj (Eq.trans (by decide +kernel) hcanonical)
  obtain rfl : "303L" = written := Except.ok.inj hwritten
  exact ⟨root, t, hparse, ht, journal, hcast, hown, hvalue⟩

end QueryScribe
