import QueryScribe.Proofs.Locality.Basic
import QueryScribe.Proofs.Parts

/-!
# Natural types

Apart from the types that numbers are written as, the types that are noted of nodes do not depend on
what was noted before: each node has a natural type, which follows from its rule and the natural
types below it (`Tree.natural`). The nodes that a number passes through on the way down to its
literal or its sign all have its natural type (`Passes.natural_eq`), and so has what stands under the
sign (`natural_sign`).
-/

namespace QueryScribe

open List

/-- The natural type of a node of a rule, from the natural types of its inner nodes. -/
def Rule.natural (rule : Rule) (t : Tree) (types : List ValueType) : ValueType :=
  let first := types.headD .undefined
  match rule with
  | .fileInput => .undefined
  | .stringLiteral => .string
  | .integerLiteral | .imagLiteral => .long
  | .floatLiteral => .decimal
  | .hexLiteral => .hex
  | .octLiteral => .octal
  | .binLiteral => .binary
  | .booleanLiteral => .bool
  | .noneLiteral => .null
  | .arrayLiteral => .array
  | .objectLiteral => types.headD .object
  | .dictOrSet => if t.children.head?.any (·.isOf .keyValue) then .object else .array
  | .setLiteral => types.headD .array
  | .testListComp | .testListStar => if t.children.length = 1 then first else .array
  | .notTest | .comparison => if t.children.length = 1 then first else .bool
  | .identifier => (t.firstToken?.bind fun token => ValueType.ofSymbol? token.text).getD .undefined
  | .attributeAccess => (t.tokens.head?.bind fun name => first.member? name.text).getD .undefined
  | .functionCall => first.result
  | _ => first

namespace Tree

mutual

/-- The type that a node has unless it is written as another. -/
def natural : Tree → ValueType
  | leaf _ _ => .undefined
  | node id rule span children => rule.natural (node id rule span children) (naturalIn children)

/-- The natural types of the inner nodes among some. -/
def naturalIn : List Tree → List ValueType
  | [] => []
  | t :: ts => if t.isNode then natural t :: naturalIn ts else naturalIn ts

end

theorem naturalIn_eq_map (ts : List Tree) : naturalIn ts = (ts.filter isNode).map natural := by
  induction ts with
  | nil => rfl
  | cons t ts ih =>
    rw [naturalIn, filter_cons, ih]
    cases t.isNode <;> rfl

theorem natural_node (id : Nat) (rule : Rule) (span : Span) (cs : List Tree) :
    (node id rule span cs).natural =
      rule.natural (node id rule span cs) ((cs.filter isNode).map natural) := by
  rw [natural, naturalIn_eq_map]

variable {c t root : Tree} {id : Nat} {rule : Rule} {span : Span} {cs : List Tree}

theorem natural_wrapper (hrule : rule.isWrapper ∨ rule = .simpleStmt) (hc : c.isNode) :
    (node id rule span [c]).natural = c.natural := by
  have hfilter : [c].filter isNode = [c] := filter_eq_self.2 (by simp [hc])
  rw [natural_node, hfilter]
  rcases hrule with hrule | rfl
  · cases rule
    all_goals first | rfl | cases hrule
  · rfl

theorem natural_sign {i : Nat} {sign : Token} (hc : c.isNode) :
    (node id .factor span [.leaf i sign, c]).natural = c.natural := by
  have hleaf : (Tree.leaf i sign).isNode = false := rfl
  have hfilter : [.leaf i sign, c].filter isNode = [c] := by simp [hc, hleaf]
  rw [natural_node, hfilter]
  rfl

theorem Formed.isWrapper_of_isPassThrough (hroot : root.Formed)
    (ht : node id rule span cs ∈ root.nodes) (hvisited : (node id rule span cs).isVisited)
    (hrefused : rule.isRefused = false) (hpass : (node id rule span cs).isPassThrough) :
    rule.isWrapper ∨ rule = .simpleStmt := by
  obtain ⟨⟨c, rfl⟩, hcategory⟩ := exists_child_of_isPassThrough hpass
  have hnode : c.isNode := (Bool.and_eq_true_iff.1 hpass).1
  have hcontainer : rule.isContainer = false := isContainer_of_isVisited hvisited
  cases hroot.form_of_isVisited ht hvisited with
  | refused h => rw [hrefused] at h; cases h
  | program => cases hvisited
  | line => exact .inr rfl
  | wrapper h => exact .inl h
  | literal | name => cases hnode
  | string h => rw [h c (mem_singleton_self c)] at hnode; cases hnode
  | collection hlisting =>
    cases rule
    case setLiteral | arrayLiteral | objectLiteral => cases hcategory
    all_goals cases hlisting
  | comparison _ _ hne | operation _ _ _ hne => exact absurd rfl hne
  | call => cases hcategory
  | items hrule => rcases hrule with rfl | rfl <;> cases hcontainer
  | entries | elements => cases hcontainer
  | operator => cases hcontainer

/-! ## Nodes that are passed -/

/-- A node passes down to another one through pass-through nodes. -/
inductive Passes : Tree → List Tree → Tree → Prop
  | here (t : Tree) : Passes t [t] t
  | pass {t child core : Tree} {passed : List Tree} : t.isPassThrough → t.children = [child] →
    Passes child passed core → Passes t (t :: passed) core

variable {core : Tree} {passed : List Tree}

theorem Passes.spine (h : t.Passes passed core) : Spine t core ∧ ∀ p ∈ passed, Spine t p := by
  induction h with
  | here t => exact ⟨.refl t, fun p hp => mem_singleton.1 hp ▸ .refl t⟩
  | pass hpass hchildren _ ih =>
    have hmem := mem_operands_of_isPassThrough hpass (hchildren ▸ mem_singleton_self _)
    refine ⟨.step hmem ih.1, forall_mem_cons.2 ⟨.refl _, fun p hp => .step hmem (ih.2 p hp)⟩⟩

theorem Passes.eq_or_mem_operands (h : t.Passes passed core) :
    ∀ p ∈ passed, p = t ∨ ∃ q ∈ passed, q.isPassThrough ∧ p ∈ q.operands := by
  induction h with
  | here t => exact fun p hp => .inl (mem_singleton.1 hp)
  | @pass t child core passed hpass hchildren _ ih =>
    refine forall_mem_cons.2 ⟨.inl rfl, fun p hp => .inr ?_⟩
    rcases ih p hp with rfl | ⟨q, hq, hpq⟩
    · exact ⟨t, .head _, hpass,
        mem_operands_of_isPassThrough hpass (hchildren ▸ mem_singleton_self _)⟩
    · exact ⟨q, .tail _ hq, hpq⟩

/-- A spine whose nodes are all written. -/
def Written (root t : Tree) : Prop :=
  ∀ s, Spine t s → s ∈ root.nodes ∧ s.isVisited ∧ s.isRefused = false

theorem Written.of_spine {s : Tree} (h : Written root t) (hs : Spine t s) : Written root s :=
  fun u hu => h u (hs.trans hu)

/-- The nodes that are passed have one natural type. -/
theorem Passes.natural_eq (h : t.Passes passed core) (hroot : root.Formed)
    (ht : Written root t) : core.natural = t.natural ∧ ∀ p ∈ passed, p.natural = t.natural := by
  induction h with
  | here t => exact ⟨rfl, fun p hp => mem_singleton.1 hp ▸ rfl⟩
  | @pass t child core passed hpass hchildren _ ih =>
    have hmem := mem_operands_of_isPassThrough hpass (hchildren ▸ mem_singleton_self child)
    obtain ⟨hnodes, hvisited, hrefused⟩ := ht t (.refl t)
    have hnatural : t.natural = child.natural := by
      cases t with
      | leaf => cases hpass
      | node id rule span cs =>
        obtain rfl : cs = [child] := hchildren
        exact natural_wrapper
          (hroot.isWrapper_of_isPassThrough hnodes hvisited hrefused hpass)
          (Bool.and_eq_true_iff.1 hpass).1
    obtain ⟨hcore, hpassed⟩ := ih (ht.of_spine (.step hmem (.refl child)))
    rw [hnatural]
    exact ⟨hcore, forall_mem_cons.2 ⟨hnatural, hpassed⟩⟩

end Tree

/-! ## Numbers with signs -/

namespace Signed

/-- A node is seen as a number with signs: below the nodes that it passes stands a literal, a sign
or anything else. -/
inductive Views : Tree → Signed → Prop
  | literal {t core : Tree} {passed : List Tree} {token : Token} : t.Passes passed core →
    core.rule?.any Rule.isNumber → core.firstToken? = some token →
      Views t (literal passed core token.text)
  | signed {t operand : Tree} {passed : List Tree} {id i : Nat} {span : Span} {sign : Token}
      {view : Signed} :
    t.Passes passed (.node id .factor span [.leaf i sign, operand]) → Views operand view →
      Views t (signed passed sign.text operand view)
  | other {t core : Tree} {passed : List Tree} : t.Passes passed core → Views t (other passed)

/-- A node is seen as a literal, as what it passes through to, as a sign with its operand, or as
anything else. -/
theorem under_cases (t : Tree) :
    (∃ token, t.rule?.any Rule.isNumber ∧ t.firstToken? = some token ∧
      ∀ passed, under passed t = literal (passed ++ [t]) t token.text) ∨
    (∃ child, t.isPassThrough ∧ t.children = [child] ∧
      ∀ passed, under passed t = under (passed ++ [t]) child) ∨
    (∃ id i span sign operand, t = .node id .factor span [.leaf i sign, operand] ∧
      ∀ passed, under passed t = signed (passed ++ [t]) sign.text operand (ofTree operand)) ∨
    ∀ passed, under passed t = other (passed ++ [t]) := by
  cases t with
  | leaf => exact .inr (.inr (.inr fun _ => rfl))
  | node id rule span cs =>
    unfold under
    dsimp only
    split
    · rename_i hnumber
      split
      · rename_i token htoken
        exact .inl ⟨token, hnumber, htoken, fun _ => rfl⟩
      · exact .inr (.inr (.inr fun _ => rfl))
    · split
      · split
        · exact .inr (.inr (.inr fun _ => rfl))
        · rename_i hcategory
          exact .inr (.inl ⟨_, by simpa [Tree.isPassThrough, Tree.isNode] using hcategory, rfl, fun _ => under.eq_def _ _⟩)
      · split
        · rename_i hfactor
          subst hfactor
          exact .inr (.inr (.inl ⟨_, _, _, _, _, rfl, fun _ => rfl⟩))
        · exact .inr (.inr (.inr fun _ => rfl))
      · exact .inr (.inr (.inr fun _ => rfl))

/-- The view of a node below the nodes that were passed is one of the first of these. -/
theorem views_under {top : Tree} {before : List Tree} {t : Tree}
    (h : ∀ passed core, t.Passes passed core → top.Passes (before ++ passed) core) :
    Views top (under before t) := by
  induction t using Tree.induction generalizing top before with
  | leaf => exact .other (h _ _ (.here _))
  | node id rule span cs ih =>
    rcases under_cases (.node id rule span cs) with ⟨token, hnumber, htoken, hview⟩ |
      ⟨child, hpass, hchild, hview⟩ | ⟨_, _, _, sign, operand, heq, hview⟩ | hview
    all_goals rw [hview]
    · exact .literal (h _ _ (.here _)) hnumber htoken
    · obtain rfl : cs = [child] := hchild
      refine ih child (.head _) fun passed core hpasses => ?_
      rw [append_assoc]
      exact h _ _ (.pass hpass rfl hpasses)
    · cases heq
      exact .signed (h _ _ (.here _)) (ih operand (.tail _ (.head _)) fun _ _ h => h)
    · exact .other (h _ _ (.here _))

theorem views_ofTree (t : Tree) : Views t (ofTree t) := views_under fun _ _ h => h

end Signed

end QueryScribe
