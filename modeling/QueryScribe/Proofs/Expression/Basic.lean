import QueryScribe.Proofs.Printing.Code

/-!
# Plain expressions

Numbers, truth values, `None`, parentheses around one expression, arrays, documents and operators make
plain expressions. What a tree of such an expression says is an `Expr`: nodes that pass through and
numbers of nodes are left out (`Tree.expr`). A target writes an expression from the texts of its parts
(`Expr.text`), whatever stands around it.
-/

namespace QueryScribe

open List

/-- What a plain expression says. A comparison has one operator less than operands. -/
inductive Expr
  | literal (type : ValueType) (text : String)
  | parenthesized (e : Expr)
  | array (es : List Expr)
  | document (keys values : List Expr)
  | disjunction (es : List Expr)
  | conjunction (es : List Expr)
  | negation (e : Expr)
  | comparison (operands : List Expr) (ops : List String)
  | operation (op : String) (a b : Expr)
  | sign (op : String) (e : Expr)
  | power (base exponent : Expr)

namespace Expr

/-- What a token says by itself. -/
def token (text : String) : Expr := literal .undefined text

/-- The keys of a document. -/
def keys : Expr → List Expr
  | document keys _ => keys
  | _ => []

/-- The values of a document. -/
def values : Expr → List Expr
  | document _ values => values
  | _ => []

/-- Operands of a logical operator, or one expression alone. -/
def joined (join : List Expr → Expr) : List Expr → Expr
  | [e] => e
  | es => join es

/-- Operations on what stands so far. -/
def operations (a : Expr) : List Tree → List Expr → Expr
  | .leaf _ op :: _ :: cs, _ :: b :: es => operations (operation op.text a b) cs es
  | _, _ => a

end Expr

/-! ## From trees to expressions -/

/-- The type of the literals of a rule. -/
def Rule.literalType : Rule → ValueType
  | .integerLiteral | .imagLiteral => .long
  | .floatLiteral => .decimal
  | .hexLiteral => .hex
  | .octLiteral => .octal
  | .binLiteral => .binary
  | .booleanLiteral => .bool
  | .noneLiteral => .null
  | _ => .undefined

/-- The operator that a node of a comparison spells. -/
def Tree.spelling (op : Tree) : String := String.join (op.tokens.map (·.text))

/-- What a node says, from what its children say. -/
def Rule.exprOf (rule : Rule) (cs : List Tree) (es : List Expr) : Expr :=
  match rule with
  | .integerLiteral | .hexLiteral | .octLiteral | .binLiteral | .floatLiteral | .imagLiteral
  | .booleanLiteral | .noneLiteral =>
    match cs with
    | [.leaf _ token] => .literal rule.literalType token.text
    | _ => .token ""
  | .testListComp => .array es
  | .keyValue =>
    match es with
    | [key, value] => .document [key] [value]
    | _ => .document [] []
  | .dictOrSet => .document (es.flatMap Expr.keys) (es.flatMap Expr.values)
  | .arrayLiteral => es.headD (.array [])
  | .objectLiteral => es.headD (.document [] [])
  | .setLiteral =>
    match es with
    | [.array [e]] => .parenthesized e
    | es => es.headD (.array [])
  | .orTest => Expr.joined .disjunction es
  | .andTest => Expr.joined .conjunction es
  | .notTest => Expr.joined (fun es => .negation (es.getLastD (.token ""))) es
  | .comparison =>
    Expr.joined (fun es =>
      .comparison (Renderer.everySecond es) ((Renderer.everySecond cs.tail).map Tree.spelling)) es
  | .expr | .xorExpr | .andExpr | .shiftExpr | .arithExpr | .term =>
    (es.headD (.token "")).operations cs.tail es.tail
  | .factor =>
    match cs, es with
    | [.leaf _ token, _], [_, e] => .sign token.text e
    | _, es => es.headD (.token "")
  | .power =>
    match es with
    | [base, _, exponent] => .power base exponent
    | es => es.headD (.token "")
  | _ => es.headD (.token "")

namespace Tree

mutual

/-- What the tree of a plain expression says. -/
def expr : Tree → Expr
  | leaf _ token => .token token.text
  | node _ rule _ children => rule.exprOf children (exprsIn children)

/-- What trees say one by one. -/
def exprsIn : List Tree → List Expr
  | [] => []
  | t :: ts => expr t :: exprsIn ts

end

theorem exprsIn_eq_map (ts : List Tree) : exprsIn ts = ts.map expr := by
  induction ts with
  | nil => rfl
  | cons t ts ih => rw [exprsIn, map_cons, ih]

theorem expr_node (id : Nat) (rule : Rule) (span : Span) (cs : List Tree) :
    (node id rule span cs).expr = rule.exprOf cs (cs.map expr) := by
  rw [expr, exprsIn_eq_map]

end Tree

/-! ## Plain nodes -/

/-- Whether a node is one of a program that is a single plain expression. -/
def Tree.isPlain : Tree → Bool
  | leaf _ _ => true
  | node _ rule _ cs =>
    match rule with
    | .fileInput | .simpleStmt | .testListStar => cs.length == 1
    | .setLiteral => cs.any (·.children.length == 1)
    | .dictOrSet => cs.all (·.isOf .keyValue)
    | .stmt | .smallStmt | .exprStmt | .test | .orTest | .andTest | .notTest | .comparison | .compOp
    | .expr | .xorExpr | .andExpr | .shiftExpr | .arithExpr | .term | .factor | .power | .atomExpr
    | .arrayLiteral | .objectLiteral | .testListComp | .keyValue | .integerLiteral | .hexLiteral
    | .octLiteral | .binLiteral | .floatLiteral | .imagLiteral | .booleanLiteral | .noneLiteral => true
    | _ => false

/-- Whether a rule is one of programs, lines or statements. -/
def Rule.isLine : Rule → Bool
  | .fileInput | .stmt | .simpleStmt => true
  | _ => false

namespace Tree

variable {id : Nat} {rule : Rule} {span : Span} {cs : List Tree} {c s t : Tree}

theorem affixes?_of_isPlain (h : (node id rule span cs).isPlain) (hrule : rule ≠ .fileInput) :
    ∃ s, rule.affixes? = some s := by
  cases rule
  case fileInput => exact absurd rfl hrule
  all_goals first | exact ⟨_, rfl⟩ | cases h

theorem isFormed_of_isPlain (h : (node id rule span cs).isPlain) : rule.isFormed := by
  cases rule
  all_goals first | rfl | cases h

theorem isRefused_of_isPlain (h : (node id rule span cs).isPlain) : rule.isRefused = false := by
  have hformed := isFormed_of_isPlain h
  rw [Rule.isFormed, Bool.and_eq_true, Bool.not_eq_true'] at hformed
  exact hformed.1

/-- The tree of a plain expression: its nodes follow productions and are plain, and none of them is a
line. -/
structure Plain (t : Tree) : Prop where
  follows : t.Follows
  plain : ∀ s ∈ t.nodes, s.isPlain = true
  inline : ∀ s ∈ t.nodes, s.rule?.any Rule.isLine = false

theorem Plain.of_mem_nodes (h : t.Plain) (hs : s ∈ t.nodes) : s.Plain where
  follows u hu := h.follows u (mem_nodes_trans hs hu)
  plain u hu := h.plain u (mem_nodes_trans hs hu)
  inline u hu := h.inline u (mem_nodes_trans hs hu)

namespace Plain

variable (h : (node id rule span cs).Plain)

include h

theorem form : Form rule cs :=
  (h.follows _ (self_mem_nodes rfl)).form (isFormed_of_isPlain (h.plain _ (self_mem_nodes rfl)))

theorem child (hc : c ∈ cs) (hnode : c.isNode) : c.Plain :=
  h.of_mem_nodes (mem_nodes_node.2 (.inr ⟨c, hc, self_mem_nodes hnode⟩))

theorem exists_affixes : ∃ s, rule.affixes? = some s := by
  refine affixes?_of_isPlain (h.plain _ (self_mem_nodes rfl)) ?_
  rintro rfl
  cases h.inline _ (self_mem_nodes rfl)

end Plain

theorem Plain.isOf_compFor (h : t.Plain) : t.isOf .compFor = false := by
  cases t with
  | leaf => rfl
  | node id rule span cs =>
    refine Bool.eq_false_iff.2 fun hof => ?_
    have hplain := h.plain _ (self_mem_nodes rfl)
    rw [rule_of_isOf hof] at hplain
    cases hplain

theorem Plain.elements (h : (node id .testListComp span cs).Plain) : ∀ c ∈ cs, c.isVisited :=
  h.form.hasForm

/-- Whether a node is an entry of a document, with a key and a value. -/
def IsEntry (e : Tree) : Prop :=
  ∃ i span key value, e = node i .keyValue span [key, value] ∧ key.isVisited ∧ value.isVisited

theorem Plain.entries (h : (node id .dictOrSet span cs).Plain) : ∀ e ∈ cs, e.IsEntry := by
  intro e he
  have hof : e.isOf .keyValue := all_eq_true.1 (h.plain _ (self_mem_nodes rfl)) e he
  obtain ⟨i, sp, ds, rfl⟩ := exists_of_isOf hof
  clear hof
  obtain ⟨key, value, rfl, hkey, hvalue⟩ := (h.child he rfl).form.hasForm
  exact ⟨i, sp, key, value, rfl, hkey, hvalue⟩

end Tree

/-- The forms of the nodes of plain expressions, by rule and children. -/
inductive PlainForm : Rule → List Tree → Prop
  | wrapper {rule : Rule} {c : Tree} : rule.isWrapper → c.isVisited → PlainForm rule [c]
  | literal {rule : Rule} {k : Nat} {token : Token} : token.kind ∈ rule.literalKinds → token.Lexed →
    PlainForm rule [.leaf k token]
  | parenthesized {k : Nat} {span : Span} {c : Tree} : c.isVisited →
    PlainForm .setLiteral [.node k .testListComp span [c]]
  | emptyArray : PlainForm .arrayLiteral []
  | array {k : Nat} {span : Span} {cs : List Tree} : (∀ c ∈ cs, c.isVisited) →
    PlainForm .arrayLiteral [.node k .testListComp span cs]
  | emptyDocument : PlainForm .objectLiteral []
  | document {k : Nat} {span : Span} {cs : List Tree} : (∀ c ∈ cs, c.IsEntry) →
    PlainForm .objectLiteral [.node k .dictOrSet span cs]
  | disjunction {c d : Tree} {cs : List Tree} : (∀ e ∈ c :: d :: cs, e.isVisited) →
    PlainForm .orTest (c :: d :: cs)
  | conjunction {c d : Tree} {cs : List Tree} : (∀ e ∈ c :: d :: cs, e.isVisited) →
    PlainForm .andTest (c :: d :: cs)
  | negation {k : Nat} {token : Token} {c : Tree} : token.text = "not" → c.isVisited →
    PlainForm .notTest [.leaf k token, c]
  | comparison {c op d : Tree} {cs : List Tree} : c.isVisited →
    Alternates (·.rule? = some .compOp) (·.isVisited) (op :: d :: cs) →
    PlainForm .comparison (c :: op :: d :: cs)
  | operation {rule : Rule} {c op d : Tree} {cs : List Tree} : rule.isOperation → c.isVisited →
    Alternates (·.isNode = false) (·.isVisited) (op :: d :: cs) → PlainForm rule (c :: op :: d :: cs)
  | sign {k : Nat} {token : Token} {c : Tree} : token.text ∈ ["+", "-", "~"] → c.isVisited →
    PlainForm .factor [.leaf k token, c]
  | power {k : Nat} {token : Token} {c d : Tree} : token.text = "**" → c.isVisited → d.isVisited →
    PlainForm .power [c, .leaf k token, d]

namespace Tree

variable {id : Nat} {rule : Rule} {span : Span} {cs : List Tree} {c s t : Tree}

/-- The nodes of plain expressions that are written have these forms. -/
theorem Plain.plainForm (h : (node id rule span cs).Plain) (hvisited : rule.isVisited) :
    PlainForm rule cs := by
  have hplain := h.plain _ (self_mem_nodes rfl)
  have hfollows := h.follows _ (self_mem_nodes rfl)
  cases h.form with
  | refused hrefused =>
    rw [isRefused_of_isPlain hplain] at hrefused
    cases hrefused
  | program | line => cases h.inline _ (self_mem_nodes rfl)
  | wrapper hrule hc => exact .wrapper hrule hc
  | @qualified _ refused c d _ _ hd hrefused =>
    obtain ⟨k, sp, ds, rfl⟩ := exists_of_rule? hd
    have hchild := h.child (mem_cons_of_mem c (.head _)) rfl
    rw [isRefused_of_isPlain (hchild.plain _ (self_mem_nodes rfl))] at hrefused
    cases hrefused
  | tuple => simp [isPlain] at hplain
  | literal hrule hlexed => exact .literal hrule hlexed
  | string | name | call | callWith | member => cases hplain
  | empty hrule =>
    cases rule with
    | setLiteral => cases hplain
    | arrayLiteral => exact .emptyArray
    | objectLiteral => exact .emptyDocument
    | _ => cases hrule
  | @collection _ listing c hlisting hc =>
    obtain ⟨k, sp, es, rfl⟩ := exists_of_rule? hc
    have hchild := h.child (.head _) rfl
    cases rule with
    | setLiteral =>
      cases hlisting
      obtain ⟨e, rfl⟩ : ∃ e, es = [e] := by
        refine length_eq_one_iff.1 ?_
        simpa [isPlain, children] using hplain
      exact .parenthesized (hchild.elements e (.head _))
    | arrayLiteral =>
      cases hlisting
      exact .array hchild.elements
    | objectLiteral =>
      cases hlisting
      exact .document hchild.entries
    | _ => cases hlisting
  | logical hrule hcs =>
    cases rule with
    | orTest => exact .disjunction hcs
    | andTest => exact .conjunction hcs
    | _ => cases hrule
  | negation hc => exact .negation hfollows.text_of_negation hc
  | @comparison c cs hc hcs hne =>
    cases hcs with
    | nil => exact absurd rfl hne
    | cons hop hd hrest => exact .comparison hc (.cons hop hd hrest)
  | @operation _ c cs hrule hc hcs hne =>
    cases hcs with
    | nil => exact absurd rfl hne
    | cons hop hd hrest => exact .operation hrule hc (.cons hop hd hrest)
  | sign htoken hc => exact .sign htoken hc
  | power hc hd => exact .power hfollows.text_of_power hc hd
  | items hrule => rcases hrule with rfl | rfl <;> cases hvisited
  | entries | elements | comprehension | pair | operator => cases hvisited

variable {motive : Tree → Prop}

theorem Plain.induction (h : t.Plain) (hnode : t.isNode)
    (step : ∀ id rule span cs, (node id rule span cs).Plain → (∀ s ∈ nodesIn cs, motive s) → motive (node id rule span cs)) :
    motive t := by
  induction hheight : t.height using Nat.strong_induction_on generalizing t with
  | h n ih =>
    cases t with
    | leaf => cases hnode
    | node id rule span cs =>
      refine step id rule span cs h fun s hs => ?_
      obtain ⟨c, hc, hsc⟩ := mem_nodesIn.1 hs
      have hmem : s ∈ (node id rule span cs).nodes := mem_nodes_node.2 (.inr ⟨c, hc, hsc⟩)
      have hlt : s.height < n := by
        have hle := height_le_of_mem_nodes hsc
        have hchild : c.height < (node id rule span cs).height := height_lt_of_mem_children hc
        omega
      exact ih s.height hlt (h.of_mem_nodes hmem) (isNode_of_mem_nodes hmem) rfl

/-- What is written below a node has a property: its children, what these list, and the parts of entries. -/
structure Below (motive : Tree → Prop) (cs : List Tree) : Prop where
  child : ∀ c ∈ cs, c.isVisited → motive c
  listed : ∀ u ∈ cs, ∀ c ∈ u.children, c.isVisited → motive c
  entry : ∀ u ∈ cs, ∀ e ∈ u.children, ∀ c ∈ e.children, c.isVisited → motive c

theorem Below.of_nodesIn (h : ∀ s ∈ nodesIn cs, s.isVisited → motive s) :
    Below motive cs := by
  have hself : ∀ {c : Tree}, c.isVisited → c ∈ c.nodes := fun hc => self_mem_nodes (isNode_of_isVisited hc)
  refine ⟨fun c hc hvisited => ?_, fun u hu c hc hvisited => ?_, fun u hu e he c hc hvisited => ?_⟩
  · exact h c (mem_nodesIn.2 ⟨c, hc, hself hvisited⟩) hvisited
  · exact h c (mem_nodesIn.2 ⟨u, hu, mem_nodes_of_mem_children hc (hself hvisited)⟩) hvisited
  · exact h c (mem_nodesIn.2 ⟨u, hu, mem_nodes_of_mem_children he
      (mem_nodes_of_mem_children hc (hself hvisited))⟩) hvisited

/-- What holds of a written node of each form, if it holds of what is written below, holds of a plain
expression. -/
theorem Plain.form_induction (h : t.Plain) (hvisited : t.isVisited)
    (step : ∀ i rule span cs, node i rule span cs ∈ t.nodes → (node i rule span cs).Plain → PlainForm rule cs → Below motive cs → motive (node i rule span cs)) :
    motive t := by
  refine h.induction (motive := fun s => (∀ u ∈ s.nodes, u ∈ t.nodes) → s.isVisited → motive s)
    (isNode_of_isVisited hvisited) ?_ (fun _ hu => hu) hvisited
  intro i rule span cs hplain ih hsub hvisited
  refine step i rule span cs (hsub _ (self_mem_nodes rfl)) hplain (hplain.plainForm hvisited)
    (.of_nodesIn fun s hs => ih s hs fun u hu => hsub u ?_)
  obtain ⟨c, hc, hs⟩ := mem_nodesIn.1 hs
  exact mem_nodes_node.2 (.inr ⟨c, hc, mem_nodes_trans hs hu⟩)

end Tree

/-! ## What the forms say -/

theorem Renderer.everySecond_map {α β : Type} (f : α → β) (l : List α) :
    everySecond (l.map f) = (everySecond l).map f := by
  fun_induction everySecond l with
  | case1 => rfl
  | case2 => rfl
  | case3 a b rest ih => simp [everySecond, ih]

namespace Tree

variable {i k : Nat} {rule : Rule} {span sp : Span} {cs : List Tree} {c d op : Tree} {token : Token}

theorem expr_wrapper (hrule : rule.isWrapper) (hc : c.isNode) : (node i rule span [c]).expr = c.expr := by
  rw [expr_node]
  cases rule
  case factor =>
    cases c with
    | leaf => cases hc
    | node => rfl
  all_goals first | rfl | cases hrule

theorem expr_literal (hrule : token.kind ∈ rule.literalKinds) :
    (node i rule span [leaf k token]).expr = .literal rule.literalType token.text := by
  cases rule
  all_goals first | rfl | cases hrule

theorem expr_parenthesized :
    (node i .setLiteral span [node k .testListComp sp [c]]).expr = .parenthesized c.expr := rfl

theorem expr_array :
    (node i .arrayLiteral span [node k .testListComp sp cs]).expr = .array (cs.map expr) := by
  rw [expr_node, map_singleton, expr_node]
  rfl

theorem expr_document : (node i .objectLiteral span [node k .dictOrSet sp cs]).expr =
    .document (cs.flatMap (·.expr.keys)) (cs.flatMap (·.expr.values)) := by
  rw [expr_node, map_singleton, expr_node]
  simp only [Rule.exprOf, headD_cons, flatMap_map]

theorem expr_disjunction :
    (node i .orTest span (c :: d :: cs)).expr = .disjunction ((c :: d :: cs).map expr) := by
  rw [expr_node]
  rfl

theorem expr_conjunction :
    (node i .andTest span (c :: d :: cs)).expr = .conjunction ((c :: d :: cs).map expr) := by
  rw [expr_node]
  rfl

theorem expr_negation : (node i .notTest span [leaf k token, c]).expr = .negation c.expr := rfl

theorem expr_comparison : (node i .comparison span (c :: op :: cs)).expr =
    .comparison ((Renderer.everySecond (c :: op :: cs)).map expr)
      ((Renderer.everySecond (op :: cs)).map spelling) := by
  rw [expr_node, ← Renderer.everySecond_map]
  rfl

theorem expr_operation (hrule : rule.isOperation) :
    (node i rule span (c :: cs)).expr = c.expr.operations cs (cs.map expr) := by
  rw [expr_node]
  cases rule
  all_goals first | rfl | cases hrule

theorem expr_sign : (node i .factor span [leaf k token, c]).expr = .sign token.text c.expr := rfl

theorem expr_power : (node i .power span [c, leaf k token, d]).expr = .power c.expr d.expr := rfl

end Tree

/-! ## What targets write -/

/-- The text of a literal, where the target has one. -/
def Target.literalText (target : Target) (type : ValueType) (text : String) : String :=
  match target.writeLiteral type text with
  | .ok text => text
  | .error _ => ""

/-- The text of a comparison, from the texts of its links. -/
def Target.joinLinks (target : Target) : List String → String
  | [link] => link
  | links => target.conjunction links

namespace Expr

mutual

/-- The text of an expression for a target. -/
def text (target : Target) : Expr → String
  | literal type text => target.literalText type text
  | parenthesized e => "(" ++ text target e ++ ")"
  | array es => target.writeArray (texts target es)
  | document keys values => target.writeDocument ((texts target keys).zip (texts target values))
  | disjunction es => target.disjunction (texts target es)
  | conjunction es => target.conjunction (texts target es)
  | negation e => target.negation (text target e)
  | comparison operands ops =>
    target.joinLinks (Renderer.links target.compare (texts target operands) ops)
  | operation op a b => target.operate op (text target a) (text target b)
  | sign op e => op ++ text target e
  | power base exponent => target.power (text target base) (text target exponent)

/-- The texts of expressions one by one. -/
def texts (target : Target) : List Expr → List String
  | [] => []
  | e :: es => text target e :: texts target es

end

theorem texts_eq_map (target : Target) (es : List Expr) : texts target es = es.map (text target) := by
  induction es with
  | nil => rfl
  | cons e es ih => rw [texts, map_cons, ih]

end Expr

namespace Tree

/-- The texts of the key and the value of an entry. -/
def entryText (target : Target) (e : Tree) : String × String :=
  ((e.expr.keys.headD (.token "")).text target, (e.expr.values.headD (.token "")).text target)

theorem zip_texts_entries (target : Target) {cs : List Tree} (hcs : ∀ e ∈ cs, e.IsEntry) :
    (Expr.texts target (cs.flatMap (·.expr.keys))).zip (Expr.texts target (cs.flatMap (·.expr.values))) =
      cs.map (entryText target) := by
  induction cs with
  | nil => rfl
  | cons e cs ih =>
    obtain ⟨⟨i, sp, key, value, rfl, -⟩, hrest⟩ := forall_mem_cons.1 hcs
    rw [map_cons, ← ih hrest]
    rfl

end Tree

end QueryScribe
