import QueryScribe.Proofs.Outline
import QueryScribe.Render.Visit

/-!
# The forms of nodes

The grammar leaves few forms of children for each rule. `Rule.outlines` lists what the productions of
a rule leave, as one evaluation over the whole grammar confirms (`mem_outlines`); `Form` says what
this comes to for the nodes that are written, and `form_of_parse` that all nodes of a tree that was
read are of these forms. Nothing later looks at productions again.
-/

namespace QueryScribe

open List

open Rule QueryScribe.Tree

namespace Rule

/-- Rules of nodes that are read but not written. -/
def isRefused : Rule → Bool
  | .delStmt | .passStmt | .flowStmt | .importStmt | .globalStmt | .nonlocalStmt | .assertStmt
  | .ifStmt | .whileStmt | .forStmt | .tryStmt | .withStmt | .funcDef | .classDef | .decorated
  | .asyncStmt | .starExpr | .starArgument | .inlineIf | .lambdaDef | .ellipsisAtom | .annAssign
  | .augAssign | .assignStmt | .compFor | .compIf | .keywordArgument | .indexAccess => true
  | _ => false

/-- Rules of nodes that list others and are never written themselves. -/
def isContainer : Rule → Bool
  | .argList | .testListComp | .dictOrSet | .keyValue | .compOp => true
  | _ => false

/-- Rules of nodes that are written as their only child, if they have just one. -/
def isWrapper : Rule → Bool
  | .stmt | .smallStmt | .compoundStmt | .exprStmt | .testListStar | .test | .orTest | .andTest
  | .notTest | .comparison | .expr | .xorExpr | .andExpr | .shiftExpr | .arithExpr | .term
  | .factor | .power | .atomExpr | .argument => true
  | _ => false

/-- Rules of operands joined by a logical operator. -/
def isLogical : Rule → Bool
  | .orTest | .andTest => true
  | _ => false

/-- Rules of operands joined by other operators. -/
def isOperation : Rule → Bool
  | .expr | .xorExpr | .andExpr | .shiftExpr | .arithExpr | .term => true
  | _ => false

/-- What a collection has for a child, unless it is empty. -/
def listing? : Rule → Option Rule
  | .setLiteral | .arrayLiteral => some .testListComp
  | .objectLiteral => some .dictOrSet
  | _ => none

/-- The tokens of literals other than strings. -/
def literalKinds : Rule → List Terminal
  | .integerLiteral => [.decNumber]
  | .hexLiteral => [.hexNumber]
  | .octLiteral => [.octNumber]
  | .binLiteral => [.binNumber]
  | .floatLiteral => [.floatNumber]
  | .imagLiteral => [.imagNumber]
  | .booleanLiteral => [.trueWord, .falseWord]
  | .noneLiteral => [.noneWord]
  | _ => []

/-- Rules of nodes that stand where one is written, whether it can be or not. -/
def isVisited (r : Rule) : Bool :=
  r.isRefused || r.isWrapper || r.listing?.isSome || !r.literalKinds.isEmpty ||
    [simpleStmt, stringLiteral, identifier, functionCall, attributeAccess].contains r

/-- Rules of nodes whose form matters. -/
def isFormed (r : Rule) : Bool := !r.isRefused && (r.isVisited || r.isContainer || r = fileInput)

/-- What the productions of a rule leave, for rules of nodes whose form matters. -/
def outlines : Rule → List (List Piece)
  | .fileInput => [[.run .lines], []]
  | .stmt => [[.node .simpleStmt], [.node .compoundStmt]]
  | .simpleStmt => [[.node .smallStmt, .run .semicolonSmalls], [.node .smallStmt]]
  | .smallStmt =>
    [[.node .exprStmt], [.node .delStmt], [.node .passStmt], [.node .flowStmt], [.node .importStmt],
      [.node .globalStmt], [.node .nonlocalStmt], [.node .assertStmt]]
  | .exprStmt =>
    [[.node .testListStar, .node .annAssign], [.node .testListStar, .node .augAssign],
      [.node .testListStar, .node .assignStmt], [.node .testListStar]]
  | .testListStar =>
    [[.node .test, .run .commaTestsOrStars], [.node .test],
      [.node .starExpr, .run .commaTestsOrStars], [.node .starExpr]]
  | .compoundStmt =>
    [[.node .ifStmt], [.node .whileStmt], [.node .forStmt], [.node .tryStmt], [.node .withStmt],
      [.node .funcDef], [.node .classDef], [.node .decorated], [.node .asyncStmt]]
  | .test => [[.node .orTest], [.node .inlineIf], [.node .lambdaDef]]
  | .orTest => [[.node .andTest, .run .orTests], [.node .andTest]]
  | .andTest => [[.node .notTest, .run .andTests], [.node .notTest]]
  | .notTest => [[.token .notWord, .node .notTest], [.node .comparison]]
  | .comparison => [[.node .expr, .run .comparisons], [.node .expr]]
  | .compOp =>
    [[.token .less], [.token .greater], [.token .equalEqual], [.token .greaterEqual],
      [.token .lessEqual], [.token .notEqual], [.token .inWord], [.token .notWord, .token .inWord],
      [.token .isWord], [.token .isWord, .token .notWord]]
  | .expr => [[.node .xorExpr, .run .barExprs], [.node .xorExpr]]
  | .xorExpr => [[.node .andExpr, .run .caretExprs], [.node .andExpr]]
  | .andExpr => [[.node .shiftExpr, .run .ampersandExprs], [.node .shiftExpr]]
  | .shiftExpr => [[.node .arithExpr, .run .shifts], [.node .arithExpr]]
  | .arithExpr => [[.node .term, .run .sums], [.node .term]]
  | .term => [[.node .factor, .run .products], [.node .factor]]
  | .factor =>
    [[.token .plus, .node .factor], [.token .minus, .node .factor], [.token .tilde, .node .factor],
      [.node .power]]
  | .power => [[.node .atomExpr, .token .doubleStar, .node .factor], [.node .atomExpr]]
  | .atomExpr => [[.node .atom]]
  | .testListComp =>
    [[.node .test, .node .compFor], [.node .test, .run .commaTestsOrStars], [.node .test],
      [.node .starExpr, .node .compFor], [.node .starExpr, .run .commaTestsOrStars],
      [.node .starExpr]]
  | .dictOrSet =>
    [[.node .keyValue, .run .commaKeyValues], [.node .keyValue], [.node .keyValue, .node .compFor],
      [.node .test, .run .commaTests], [.node .test], [.node .test, .node .compFor]]
  | .keyValue => [[.node .test, .node .test]]
  | .argList => [[.node .argument, .run .commaArguments], [.node .argument]]
  | .argument => [[.node .test, .node .compFor], [.node .test]]
  | .functionCall => [[.node .atomExpr, .node .argList], [.node .atomExpr]]
  | .attributeAccess => [[.node .atomExpr, .token .name]]
  | .setLiteral | .arrayLiteral => [[.node .testListComp], []]
  | .objectLiteral => [[.node .dictOrSet], []]
  | .identifier => [[.token .name]]
  | .stringLiteral => [[.run .strings]]
  | r => r.literalKinds.map fun kind => [.token kind]

end Rule

theorem Production.mem_outlines : ∀ p ∈ productions, ∀ r ∈ p.node, r.isFormed →
    outline p.rhs ∈ r.outlines := by
  decide +kernel

/-! ## Forms -/

/-- Whether a node stands where one is written. -/
def Face.isVisited : Face → Bool
  | .token _ => false
  | .rule r => r.isVisited

/-- Whether a node stands where one is written. -/
def Tree.isVisited (t : Tree) : Bool := t.face.isVisited

/-- Elements of two kinds by turns. -/
inductive Alternates {α : Type} (A B : α → Prop) : List α → Prop
  | nil : Alternates A B []
  | cons {a b : α} {rest : List α} : A a → B b → Alternates A B rest → Alternates A B (a :: b :: rest)

/-- The forms that the grammar leaves for the nodes that are written, by rule and children. -/
inductive Form : Rule → List Tree → Prop
  /-- A node that is not written, whatever it holds. -/
  | refused {rule : Rule} {cs : List Tree} : rule.isRefused → Form rule cs
  /-- The lines of a program. -/
  | program {cs : List Tree} : (∀ c ∈ cs, c.isVisited) → Form .fileInput cs
  /-- The statements of a line. -/
  | line {c : Tree} {cs : List Tree} : (∀ d ∈ c :: cs, d.isVisited) → Form .simpleStmt (c :: cs)
  /-- A node around another. -/
  | wrapper {rule : Rule} {c : Tree} : rule.isWrapper → c.isVisited → Form rule [c]
  /-- An assignment, or an argument that is a comprehension. -/
  | qualified {rule r : Rule} {c d : Tree} : rule = .exprStmt ∨ rule = .argument →
    c.isVisited → d.rule? = some r → r.isRefused → Form rule [c, d]
  /-- A tuple without parentheses. -/
  | tuple {c d : Tree} {cs : List Tree} : (∀ e ∈ c :: d :: cs, e.isVisited) →
    Form .testListStar (c :: d :: cs)
  /-- A literal other than a string. -/
  | literal {rule : Rule} {id : Nat} {token : Token} : token.kind ∈ rule.literalKinds →
    token.Lexed → Form rule [.leaf id token]
  /-- A string of one or more tokens. -/
  | string {cs : List Tree} : (∀ c ∈ cs, c.isNode = false) → Form .stringLiteral cs
  /-- A name. -/
  | name {id : Nat} {token : Token} : Form .identifier [.leaf id token]
  /-- A collection without elements. -/
  | empty {rule : Rule} : rule.listing?.isSome → Form rule []
  /-- A collection with elements. -/
  | collection {rule listing : Rule} {c : Tree} : rule.listing? = some listing →
    c.rule? = some listing → Form rule [c]
  /-- Operands of a logical operator. -/
  | logical {rule : Rule} {c d : Tree} {cs : List Tree} : rule.isLogical →
    (∀ e ∈ c :: d :: cs, e.isVisited) → Form rule (c :: d :: cs)
  /-- A negation. -/
  | negation {id : Nat} {token : Token} {c : Tree} : c.isVisited →
    Form .notTest [.leaf id token, c]
  /-- A chain of comparisons. -/
  | comparison {c : Tree} {cs : List Tree} : c.isVisited →
    Alternates (·.rule? = some .compOp) (·.isVisited) cs → cs ≠ [] → Form .comparison (c :: cs)
  /-- A chain of operations. -/
  | operation {rule : Rule} {c : Tree} {cs : List Tree} : rule.isOperation → c.isVisited →
    Alternates (·.isNode = false) (·.isVisited) cs → cs ≠ [] → Form rule (c :: cs)
  /-- An operand with a sign. -/
  | sign {id : Nat} {token : Token} {c : Tree} : token.text ∈ ["+", "-", "~"] → c.isVisited →
    Form .factor [.leaf id token, c]
  /-- A power. -/
  | power {c d : Tree} {id : Nat} {token : Token} : c.isVisited → d.isVisited →
    Form .power [c, .leaf id token, d]
  /-- A call without arguments. -/
  | call {c : Tree} : c.isVisited → Form .functionCall [c]
  /-- A call with arguments. -/
  | callWith {c args : Tree} : c.isVisited → args.rule? = some .argList →
    Form .functionCall [c, args]
  /-- A member. -/
  | member {c : Tree} {id : Nat} {token : Token} : c.isVisited →
    Form .attributeAccess [c, .leaf id token]
  /-- The arguments of a call, or the elements of a collection, of which one may be a
  comprehension. -/
  | items {rule : Rule} {cs : List Tree} : rule = .argList ∨ rule = .testListComp →
    (∀ c ∈ cs, c.isVisited) → Form rule cs
  /-- The entries of a document. -/
  | entries {c : Tree} {cs : List Tree} : (∀ d ∈ c :: cs, d.rule? = some .keyValue) →
    Form .dictOrSet (c :: cs)
  /-- The elements of a set. -/
  | elements {c : Tree} {cs : List Tree} : (∀ d ∈ c :: cs, d.rule? = some .test) →
    Form .dictOrSet (c :: cs)
  /-- A comprehension for a document or a set. -/
  | comprehension {c d : Tree} : c.rule? = some .keyValue ∨ c.rule? = some .test →
    d.rule? = some .compFor → Form .dictOrSet [c, d]
  /-- An entry of a document. -/
  | pair {key value : Tree} : key.isVisited → value.isVisited → Form .keyValue [key, value]
  /-- An operator of a comparison. -/
  | operator {cs : List Tree} : (∀ c ∈ cs, c.isNode = false) → Form .compOp cs

/-- What a node holds whose rule has one form only. -/
def Rule.HasForm : Rule → List Tree → Prop
  | .fileInput, cs | .argList, cs | .testListComp, cs => ∀ c ∈ cs, c.isVisited
  | .stringLiteral, cs | .compOp, cs => ∀ c ∈ cs, c.isNode = false
  | .keyValue, cs => ∃ key value, cs = [key, value] ∧ key.isVisited ∧ value.isVisited
  | _, _ => True

theorem Form.hasForm {rule : Rule} {cs : List Tree} (h : Form rule cs) : rule.HasForm cs := by
  cases h with
  | program h | string h | operator h => exact h
  | pair hkey hvalue => exact ⟨_, _, rfl, hkey, hvalue⟩
  | items hrule h => rcases hrule with rfl | rfl <;> exact h
  | qualified hrule => rcases hrule with rfl | rfl <;> trivial
  | refused h | wrapper h | literal h | empty h | collection h | logical h | operation h =>
    cases rule <;> trivial
  | _ => trivial

/-! ## From outlines to forms -/

/-- Whether a face is a token, where tokens are meant, or that of one of the rules. -/
def Face.among (tokens : Bool) (rules : Rule → Bool) : Face → Bool
  | .token _ => tokens
  | .rule r => rules r

/-- Whether a piece that is no run leaves tokens, where they are meant, and nodes of the rules
only. -/
def Piece.single (tokens : Bool) (rules : Rule → Bool) : Piece → Bool
  | .token _ => tokens
  | .node r => r.names.all rules
  | .run _ => false

/-- Whether a piece leaves tokens, where they are meant, and nodes of the rules only. -/
def Piece.leaves (tokens : Bool) (rules : Rule → Bool) : Piece → Bool
  | .run r => r.body.all fun rhs => (outline rhs).all (single tokens rules)
  | p => p.single tokens rules

/-- Whether a run leaves pairs of a piece of one kind and one of another. -/
def Run.alternates (a b : Piece → Bool) (r : Run) : Bool :=
  r.body.all fun rhs => match outline rhs with
    | [p, q] => a p && b q
    | _ => false

section Pieces

variable {runs : Run → List Face → Prop} {pieces : List Piece} {faces : List Face} {tokens : Bool}
  {rules : Rule → Bool}

theorem Spells.of_single {p : Piece} (h : Spells runs (p :: pieces) faces)
    (hp : p.single tokens rules) :
    ∃ f rest, f.among tokens rules ∧ faces = f :: rest ∧ Spells runs pieces rest := by
  cases p with
  | token kind =>
    obtain ⟨t, rest, -, -, rfl, hrest⟩ := Spells.token_iff.1 h
    exact ⟨.token t, rest, hp, rfl, hrest⟩
  | node r =>
    obtain ⟨name, rest, hname, rfl, hrest⟩ := Spells.node_iff.1 h
    exact ⟨.rule name, rest, all_eq_true.1 hp name hname, rfl, hrest⟩
  | run r => cases hp

theorem Spells.forall_of_single (h : Spells runs pieces faces)
    (hpieces : ∀ p ∈ pieces, p.single tokens rules) : ∀ f ∈ faces, f.among tokens rules := by
  induction pieces generalizing faces with
  | nil =>
    rw [Spells.nil_iff.1 h]
    exact fun _ hf => nomatch hf
  | cons p pieces ih =>
    obtain ⟨f, rest, hf, rfl, hrest⟩ := h.of_single (hpieces p (.head _))
    exact forall_mem_cons.2 ⟨hf, ih hrest fun p hp => hpieces p (.tail _ hp)⟩

variable {r : Run}

theorem Repeats.forall_of_leaves (h : Repeats r faces) (hr : (Piece.run r).leaves tokens rules) :
    ∀ f ∈ faces, f.among tokens rules := by
  obtain ⟨groups, -, rfl, hgroups⟩ := h
  intro f hf
  obtain ⟨group, hgroup, hf⟩ := mem_flatten.1 hf
  obtain ⟨rhs, hrhs, hspells⟩ := hgroups group hgroup
  exact hspells.forall_of_single (all_eq_true.1 (all_eq_true.1 hr rhs hrhs)) f hf

theorem Spells.forall_of_leaves (h : Spells Repeats pieces faces)
    (hpieces : pieces.all (Piece.leaves tokens rules)) : ∀ f ∈ faces, f.among tokens rules := by
  induction pieces generalizing faces with
  | nil =>
    rw [Spells.nil_iff.1 h]
    exact fun _ hf => nomatch hf
  | cons p pieces ih =>
    obtain ⟨hp, hrest'⟩ := Bool.and_eq_true_iff.1 (all_cons.symm.trans hpieces)
    cases p with
    | run r =>
      obtain ⟨group, rest, hgroup, rfl, hrest⟩ := Spells.run_iff.1 h
      exact forall_mem_append.2 ⟨hgroup.forall_of_leaves hp, ih hrest hrest'⟩
    | token | node =>
      obtain ⟨f, rest, hf, rfl, hrest⟩ := h.of_single hp
      exact forall_mem_cons.2 ⟨hf, ih hrest hrest'⟩

theorem Repeats.ne_nil (h : Repeats r faces)
    (hr : r.body.all fun rhs => (outline rhs).head?.any (Piece.single tokens rules)) :
    faces ≠ [] := by
  obtain ⟨groups, hne, rfl, hgroups⟩ := h
  obtain ⟨group, groups', rfl⟩ := exists_cons_of_ne_nil hne
  obtain ⟨rhs, hrhs, hspells⟩ := hgroups group (.head _)
  have hfirst := all_eq_true.1 hr rhs hrhs
  cases houtline : outline rhs with
  | nil => rw [houtline] at hfirst; cases hfirst
  | cons p pieces =>
    rw [houtline] at hfirst hspells
    obtain ⟨f, rest, -, rfl, -⟩ := hspells.of_single hfirst
    exact cons_ne_nil _ _

/-- A run of pairs leaves faces of two kinds by turns. -/
theorem Repeats.alternates {tokens' : Bool} {rules' : Rule → Bool} (h : Repeats r faces)
    (hr : r.alternates (Piece.single tokens rules) (Piece.single tokens' rules')) :
    Alternates (·.among tokens rules) (·.among tokens' rules') faces ∧ faces ≠ [] := by
  obtain ⟨groups, hne, rfl, hgroups⟩ := h
  have hpair : ∀ group ∈ groups, ∃ f g, group = [f, g] ∧ f.among tokens rules ∧
      g.among tokens' rules' := by
    intro group hgroup
    obtain ⟨rhs, hrhs, hspells⟩ := hgroups group hgroup
    have hrhs := all_eq_true.1 hr rhs hrhs
    split at hrhs
    · rename_i p q houtline
      obtain ⟨hp, hq⟩ := Bool.and_eq_true_iff.1 hrhs
      rw [houtline] at hspells
      obtain ⟨f, rest, hf, rfl, hrest⟩ := hspells.of_single hp
      obtain ⟨g, rest', hg, rfl, hrest'⟩ := hrest.of_single hq
      rw [Spells.nil_iff.1 hrest']
      exact ⟨f, g, rfl, hf, hg⟩
    · cases hrhs
  clear hgroups
  constructor
  · induction groups with
    | nil => exact absurd rfl hne
    | cons group groups ih =>
      obtain ⟨f, g, rfl, hf, hg⟩ := hpair group (.head _)
      rw [flatten_cons]
      by_cases hgroups : groups = []
      · rw [hgroups]
        exact .cons hf hg .nil
      · exact .cons hf hg (ih hgroups fun g hg => hpair g (.tail _ hg))
  · obtain ⟨group, groups', rfl⟩ := exists_cons_of_ne_nil hne
    obtain ⟨f, g, rfl, -, -⟩ := hpair group (.head _)
    exact cons_ne_nil _ _

end Pieces

section Trees

variable {runs : Run → List Face → Prop} {pieces : List Piece} {cs : List Tree} {rule : Rule}
  {r : Rule}

theorem Spells.tree_of_token {kind : Terminal}
    (h : Spells runs (.token kind :: pieces) (cs.map face)) :
    ∃ id token rest, cs = .leaf id token :: rest ∧ token.kind = kind ∧ token.Lexed ∧
      Spells runs pieces (rest.map face) := by
  obtain ⟨token, rest, hkind, hlexed, heq, hrest⟩ := Spells.token_iff.1 h
  obtain ⟨c, cs', rfl, hface, rfl⟩ := map_eq_cons_iff.1 heq
  cases c with
  | leaf id t =>
    cases hface
    exact ⟨id, token, cs', rfl, hkind, hlexed, hrest⟩
  | node => cases hface

theorem Spells.tree_nil (h : Spells runs [] (cs.map face)) : cs = [] :=
  map_eq_nil_iff.1 (Spells.nil_iff.1 h)

theorem Spells.tree_run {r : Run} (h : Spells runs [.run r] (cs.map face)) :
    runs r (cs.map face) := by
  obtain ⟨group, rest, hgroup, heq, hrest⟩ := Spells.run_iff.1 h
  rw [Spells.nil_iff.1 hrest, append_nil] at heq
  exact heq ▸ hgroup

theorem Tree.isVisited_eq_among (t : Tree) : t.isVisited = t.face.among false Rule.isVisited := by
  cases t <;> rfl

variable {t : Tree} {run : Run}

theorem Tree.rule?_of_among (h : t.face.among false (· == r)) : t.rule? = some r := by
  cases t with
  | leaf => cases h
  | node => exact congrArg some (beq_iff_eq.1 h)

theorem Tree.isNode_of_among (h : t.face.among true fun _ => false) :
    t.isNode = false := by
  cases t with
  | leaf => rfl
  | node => cases h

theorem Spells.tree_of_node {rules : Rule → Bool}
    (h : Spells runs (.node r :: pieces) (cs.map face)) (hr : r.names.all rules) :
    ∃ c rest, cs = c :: rest ∧ c.face.among false rules ∧
      Spells runs pieces (rest.map face) := by
  have hp : (Piece.node r).single false rules := hr
  obtain ⟨f, rest, hf, heq, hrest⟩ := h.of_single hp
  obtain ⟨c, cs', rfl, rfl, rfl⟩ := map_eq_cons_iff.1 heq
  exact ⟨c, cs', rfl, hf, hrest⟩

theorem Spells.tree_of_visited (h : Spells runs (.node r :: pieces) (cs.map face))
    (hr : r.names.all Rule.isVisited) :
    ∃ c rest, cs = c :: rest ∧ c.isVisited ∧ Spells runs pieces (rest.map face) := by
  obtain ⟨c, rest, hcs, hc, hrest⟩ := h.tree_of_node hr
  exact ⟨c, rest, hcs, c.isVisited_eq_among ▸ hc, hrest⟩

theorem Spells.tree_of_rule (h : Spells runs (.node r :: pieces) (cs.map face))
    (hr : r.names.all (· == r)) :
    ∃ c rest, cs = c :: rest ∧ c.rule? = some r ∧ Spells runs pieces (rest.map face) := by
  obtain ⟨c, rest, hcs, hc, hrest⟩ := h.tree_of_node hr
  exact ⟨c, rest, hcs, rule?_of_among hc, hrest⟩

theorem Alternates.of_map {A B : Face → Prop} {A' B' : Tree → Prop}
    (hA : ∀ t : Tree, A t.face → A' t) (hB : ∀ t : Tree, B t.face → B' t)
    (h : Alternates A B (cs.map face)) : Alternates A' B' cs := by
  generalize hfaces : cs.map face = faces at h
  induction h generalizing cs with
  | nil => rw [map_eq_nil_iff.1 hfaces]; exact .nil
  | cons ha hb _ ih =>
    obtain ⟨c, cs, rfl, rfl, hrest⟩ := map_eq_cons_iff.1 hfaces
    obtain ⟨d, cs', rfl, rfl, hrest'⟩ := map_eq_cons_iff.1 hrest
    exact .cons (hA c ha) (hB d hb) (ih hrest')

theorem Form.of_node (hrule : rule.isWrapper) (hr : r.names.all Rule.isVisited)
    (h : Spells runs [.node r] (cs.map face)) : Form rule cs := by
  obtain ⟨c, rest, rfl, hc, hrest⟩ := h.tree_of_visited hr
  rw [hrest.tree_nil]
  exact .wrapper hrule hc

/-- Whether pieces leave one visited node alone. -/
def wrapsVisited : List Piece → Bool
  | [.node r] => r.names.all Rule.isVisited
  | _ => false

theorem Form.of_wraps (hrule : rule.isWrapper) (hpieces : wrapsVisited pieces)
    (h : Spells runs pieces (cs.map face)) : Form rule cs := by
  unfold wrapsVisited at hpieces
  split at hpieces
  · exact .of_node hrule hpieces h
  · cases hpieces

theorem Spells.forall_visited (h : Spells Repeats pieces (cs.map face))
    (hpieces : pieces.all (Piece.leaves false Rule.isVisited)) : ∀ c ∈ cs, c.isVisited := by
  intro c hc
  rw [c.isVisited_eq_among]
  exact h.forall_of_leaves hpieces c.face (mem_map_of_mem hc)

theorem Spells.forall_visited_of_mem {options : List (List Piece)} (ho : pieces ∈ options)
    (hoptions : options.all (·.all (Piece.leaves false Rule.isVisited)))
    (h : Spells Repeats pieces (cs.map face)) : ∀ c ∈ cs, c.isVisited :=
  h.forall_visited (all_eq_true.1 hoptions pieces ho)

theorem Spells.forall_tokens_of_mem {options : List (List Piece)} (ho : pieces ∈ options)
    (hoptions : options.all (·.all (Piece.leaves true fun _ => false)))
    (h : Spells Repeats pieces (cs.map face)) : ∀ c ∈ cs, c.isNode = false :=
  fun c hc => isNode_of_among
    (h.forall_of_leaves (all_eq_true.1 hoptions pieces ho) c.face (mem_map_of_mem hc))

theorem Spells.forall_rule (h : Spells Repeats pieces (cs.map face))
    (hpieces : pieces.all (Piece.leaves false (· == r))) : ∀ c ∈ cs, c.rule? = some r :=
  fun c hc => rule?_of_among (h.forall_of_leaves hpieces c.face (mem_map_of_mem hc))

theorem Spells.exists_visited (hr : r.names.all Rule.isVisited)
    (hrun : (Piece.run run).leaves false Rule.isVisited)
    (hsome : run.body.all fun rhs => (outline rhs).head?.any (Piece.single false Rule.isVisited))
    (h : Spells Repeats [.node r, .run run] (cs.map face)) :
    ∃ c d rest, cs = c :: d :: rest ∧ ∀ e ∈ c :: d :: rest, e.isVisited := by
  have hpieces : [.node r, .run run].all (Piece.leaves false Rule.isVisited) :=
    all_eq_true.2 (forall_mem_cons.2 ⟨hr, forall_mem_singleton.2 hrun⟩)
  have hall := h.forall_visited hpieces
  obtain ⟨c, rest, rfl, -, hrest⟩ := h.tree_of_visited hr
  obtain ⟨d, rest, rfl⟩ := exists_cons_of_ne_nil
    (fun h => hrest.tree_run.ne_nil hsome (map_eq_nil_iff.2 h))
  exact ⟨c, d, rest, rfl, hall⟩

theorem Form.of_operation (hrule : rule.isOperation) (hwrapper : rule.isWrapper)
    (hr : r.names.all Rule.isVisited)
    (hrun : run.alternates (Piece.single true fun _ => false) (Piece.single false Rule.isVisited))
    (ho : pieces ∈ [[.node r, .run run], [.node r]]) (h : Spells Repeats pieces (cs.map face)) :
    Form rule cs := by
  rcases mem_cons.1 ho with rfl | ho
  · obtain ⟨c, rest, rfl, hc, hrest⟩ := h.tree_of_visited hr
    obtain ⟨halternates, hne⟩ := hrest.tree_run.alternates hrun
    refine .operation hrule hc (halternates.of_map ?_ ?_) ?_
    · exact fun t ht => isNode_of_among ht
    · exact fun t ht => t.isVisited_eq_among ▸ ht
    · exact fun h => hne (map_eq_nil_iff.2 h)
  · rw [mem_singleton.1 ho] at h
    exact .of_node hwrapper hr h

theorem Form.of_logical (hrule : rule.isLogical) (hwrapper : rule.isWrapper)
    (hr : r.names.all Rule.isVisited) (hrun : (Piece.run run).leaves false Rule.isVisited)
    (hsome : run.body.all fun rhs => (outline rhs).head?.any (Piece.single false Rule.isVisited))
    (ho : pieces ∈ [[.node r, .run run], [.node r]]) (h : Spells Repeats pieces (cs.map face)) :
    Form rule cs := by
  rcases mem_cons.1 ho with rfl | ho
  · obtain ⟨c, d, rest, rfl, hall⟩ := h.exists_visited hr hrun hsome
    exact .logical hrule hall
  · rw [mem_singleton.1 ho] at h
    exact .of_node hwrapper hr h

theorem Form.of_literal (ho : pieces ∈ rule.literalKinds.map fun kind => [.token kind])
    (h : Spells Repeats pieces (cs.map face)) : Form rule cs := by
  obtain ⟨kind, hkind, rfl⟩ := mem_map.1 ho
  obtain ⟨id, token, rest, rfl, rfl, hlexed, hrest⟩ := h.tree_of_token
  rw [hrest.tree_nil]
  exact .literal hkind hlexed

theorem Spells.tree_prefixed {kind : Terminal} (hr : r.names.all Rule.isVisited)
    (h : Spells runs [.token kind, .node r] (cs.map face)) :
    ∃ id token c, cs = [.leaf id token, c] ∧ token.kind = kind ∧ token.Lexed ∧ c.isVisited := by
  obtain ⟨id, token, rest, rfl, hkind, hlexed, hrest⟩ := h.tree_of_token
  obtain ⟨c, rest', rfl, hc, hrest'⟩ := hrest.tree_of_visited hr
  rw [hrest'.tree_nil]
  exact ⟨id, token, c, rfl, hkind, hlexed, hc⟩

/-- A node around another, or with a second one that makes it something else. -/
theorem Form.of_qualified (others : List Rule)
    (hrule : rule = .exprStmt ∨ rule = .argument) (hr : r.names.all Rule.isVisited)
    (hothers : ∀ r' ∈ others, r'.names.all isRefused)
    (ho : pieces ∈ (others.map fun r' => [.node r, .node r']) ++ [[.node r]])
    (h : Spells Repeats pieces (cs.map face)) : Form rule cs := by
  rcases mem_append.1 ho with ho | ho
  · obtain ⟨r', hr', rfl⟩ := mem_map.1 ho
    obtain ⟨c, rest, rfl, hc, hrest⟩ := h.tree_of_visited hr
    obtain ⟨d, rest', rfl, hd, hrest'⟩ := hrest.tree_of_node (hothers r' hr')
    rw [hrest'.tree_nil]
    cases d with
    | leaf => cases hd
    | node => exact .qualified hrule hc rfl hd
  · rw [mem_singleton.1 ho] at h
    refine .of_node ?_ hr h
    rcases hrule with rfl | rfl <;> rfl

theorem Form.of_tuple (ho : pieces ∈ outlines .testListStar)
    (h : Spells Repeats pieces (cs.map face)) : Form .testListStar cs := by
  by_cases hwraps : wrapsVisited pieces
  · exact .of_wraps rfl hwraps h
  obtain ⟨r, hr, rfl⟩ : ∃ r : Rule, r.names.all Rule.isVisited ∧
      pieces = [.node r, .run .commaTestsOrStars] := by
    simp only [outlines, mem_cons, not_mem_nil, or_false] at ho
    rcases ho with rfl | rfl | rfl | rfl
    · exact ⟨.test, rfl, rfl⟩
    · exact absurd rfl hwraps
    · exact ⟨.starExpr, rfl, rfl⟩
    · exact absurd rfl hwraps
  obtain ⟨c, d, rest, rfl, hall⟩ := h.exists_visited hr (by decide) (by decide)
  exact .tuple hall

theorem Form.of_comparison (ho : pieces ∈ outlines .comparison)
    (h : Spells Repeats pieces (cs.map face)) : Form .comparison cs := by
  rcases mem_cons.1 ho with rfl | ho
  · obtain ⟨c, rest, rfl, hc, hrest⟩ :=
      h.tree_of_visited (by decide)
    have hrun : Run.comparisons.alternates (Piece.single false (· == .compOp))
        (Piece.single false Rule.isVisited) := by decide
    obtain ⟨halternates, hne⟩ := hrest.tree_run.alternates hrun
    refine .comparison hc (halternates.of_map ?_ ?_) ?_
    · exact fun t ht => rule?_of_among ht
    · exact fun t ht => t.isVisited_eq_among ▸ ht
    · exact fun h => hne (map_eq_nil_iff.2 h)
  · rw [mem_singleton.1 ho] at h
    exact .of_node rfl (by decide) h

theorem Form.of_power (ho : pieces ∈ outlines .power)
    (h : Spells Repeats pieces (cs.map face)) : Form .power cs := by
  rcases mem_cons.1 ho with rfl | ho
  · obtain ⟨c, rest, rfl, hc, hrest⟩ :=
      h.tree_of_visited (by decide)
    obtain ⟨id, token, d, rfl, -, -, hd⟩ := hrest.tree_prefixed (by decide)
    exact .power hc hd
  · rw [mem_singleton.1 ho] at h
    exact .of_node rfl (by decide) h

theorem Form.of_sign (ho : pieces ∈ outlines .factor)
    (h : Spells Repeats pieces (cs.map face)) : Form .factor cs := by
  have hsign : ∀ kind, ∀ text ∈ ["+", "-", "~"], (kind, text) ∈ Terminal.spelled →
      pieces = [.token kind, .node .factor] → Form .factor cs := by
    rintro kind text htext hmem rfl
    obtain ⟨id, token, c, rfl, rfl, hlexed, hc⟩ := h.tree_prefixed (by decide)
    exact .sign (hlexed.spelled text hmem ▸ htext) hc
  simp only [outlines, mem_cons, not_mem_nil, or_false] at ho
  rcases ho with rfl | rfl | rfl | rfl
  · exact hsign .plus "+" (by decide) (by decide) rfl
  · exact hsign .minus "-" (by decide) (by decide) rfl
  · exact hsign .tilde "~" (by decide) (by decide) rfl
  · exact .of_node rfl (by decide) h

theorem Form.of_call (ho : pieces ∈ outlines .functionCall)
    (h : Spells Repeats pieces (cs.map face)) : Form .functionCall cs := by
  rcases mem_cons.1 ho with rfl | ho
  · obtain ⟨c, rest, rfl, hc, hrest⟩ := h.tree_of_visited (by decide)
    obtain ⟨args, rest', rfl, hargs, hrest'⟩ := hrest.tree_of_rule (by decide)
    rw [hrest'.tree_nil]
    exact .callWith hc hargs
  · rw [mem_singleton.1 ho] at h
    obtain ⟨c, rest, rfl, hc, hrest⟩ :=
      h.tree_of_visited (by decide)
    rw [hrest.tree_nil]
    exact .call hc

theorem Form.of_collection {listing : Rule} (hrule : rule.listing? = some listing)
    (hnames : listing.names.all (· == listing)) (ho : pieces ∈ [[.node listing], []])
    (h : Spells Repeats pieces (cs.map face)) : Form rule cs := by
  rcases mem_cons.1 ho with rfl | ho
  · obtain ⟨c, rest, rfl, hc, hrest⟩ := h.tree_of_rule hnames
    rw [hrest.tree_nil]
    exact .collection hrule hc
  · rw [mem_singleton.1 ho] at h
    rw [h.tree_nil]
    exact .empty (hrule ▸ rfl)

theorem Form.of_dictOrSet (ho : pieces ∈ outlines .dictOrSet)
    (h : Spells Repeats pieces (cs.map face)) : Form .dictOrSet cs := by
  simp only [outlines, mem_cons, not_mem_nil, or_false] at ho
  rcases ho with rfl | rfl | rfl | rfl | rfl | rfl
  case inl | inr.inl =>
    have hall := h.forall_rule (r := .keyValue) (by decide)
    obtain ⟨c, rest, rfl, -, -⟩ := h.tree_of_rule (by decide)
    exact .entries hall
  case inr.inr.inr.inl | inr.inr.inr.inr.inl =>
    have hall := h.forall_rule (r := .test) (by decide)
    obtain ⟨c, rest, rfl, -, -⟩ := h.tree_of_rule (by decide)
    exact .elements hall
  all_goals
    obtain ⟨c, rest, rfl, hc, hrest⟩ := h.tree_of_rule (by decide)
    obtain ⟨d, rest', rfl, hd, hrest'⟩ := hrest.tree_of_rule (by decide)
    rw [hrest'.tree_nil]
  · exact .comprehension (.inl hc) hd
  · exact .comprehension (.inr hc) hd

/-- The children of a node that follows a production are of a form of its rule. -/
theorem Tree.FollowsProduction.form {id : Nat} {span : Span}
    (h : (node id rule span cs).FollowsProduction) (hrule : rule.isFormed) : Form rule cs := by
  obtain ⟨p, hp, hnode, hspells⟩ := h
  have ho := p.mem_outlines hp rule hnode hrule
  change Spells _ _ (cs.map face) at hspells
  generalize outline p.rhs = pieces at ho hspells
  cases rule
  case fileInput =>
    refine .program ?_
    rcases mem_cons.1 ho with rfl | ho
    · exact hspells.forall_visited (by decide)
    · rw [mem_singleton.1 ho] at hspells
      exact hspells.forall_visited rfl
  case simpleStmt =>
    have hall := hspells.forall_visited_of_mem ho (by decide)
    rcases mem_cons.1 ho with rfl | ho
    · obtain ⟨c, rest, rfl, -, -⟩ := hspells.tree_of_visited (by decide)
      exact .line hall
    · rw [mem_singleton.1 ho] at hspells
      obtain ⟨c, rest, rfl, -, -⟩ := hspells.tree_of_visited (by decide)
      exact .line hall
  case stmt | smallStmt | compoundStmt | test | atomExpr =>
    exact .of_wraps rfl (all_eq_true.1 (by decide) pieces ho) hspells
  case exprStmt =>
    exact .of_qualified [.annAssign, .augAssign, .assignStmt] (.inl rfl) (by decide) (by decide) ho
      hspells
  case argument => exact .of_qualified [.compFor] (.inr rfl) (by decide) (by decide) ho hspells
  case testListStar => exact .of_tuple ho hspells
  case orTest => exact .of_logical rfl rfl (by decide) (by decide) (by decide) ho hspells
  case andTest => exact .of_logical rfl rfl (by decide) (by decide) (by decide) ho hspells
  case notTest =>
    rcases mem_cons.1 ho with rfl | ho
    · obtain ⟨id, token, c, rfl, -, -, hc⟩ := hspells.tree_prefixed (by decide)
      exact .negation hc
    · rw [mem_singleton.1 ho] at hspells
      exact .of_node rfl (by decide) hspells
  case comparison => exact .of_comparison ho hspells
  case expr => exact .of_operation rfl rfl (by decide) (by decide) ho hspells
  case xorExpr => exact .of_operation rfl rfl (by decide) (by decide) ho hspells
  case andExpr => exact .of_operation rfl rfl (by decide) (by decide) ho hspells
  case shiftExpr => exact .of_operation rfl rfl (by decide) (by decide) ho hspells
  case arithExpr => exact .of_operation rfl rfl (by decide) (by decide) ho hspells
  case term => exact .of_operation rfl rfl (by decide) (by decide) ho hspells
  case factor =>
    exact .of_sign ho hspells
  case power => exact .of_power ho hspells
  case functionCall => exact .of_call ho hspells
  case attributeAccess =>
    rw [mem_singleton.1 ho] at hspells
    obtain ⟨c, rest, rfl, hc, hrest⟩ :=
      hspells.tree_of_visited (by decide)
    obtain ⟨id, token, rest', rfl, -, -, hrest'⟩ := hrest.tree_of_token
    rw [hrest'.tree_nil]
    exact .member hc
  case setLiteral | arrayLiteral => exact .of_collection rfl (by decide) ho hspells
  case objectLiteral => exact .of_collection rfl (by decide) ho hspells
  case identifier =>
    rw [mem_singleton.1 ho] at hspells
    obtain ⟨id, token, rest, rfl, -, -, hrest⟩ := hspells.tree_of_token
    rw [hrest.tree_nil]
    exact .name
  case integerLiteral | hexLiteral | octLiteral | binLiteral | floatLiteral | imagLiteral
      | booleanLiteral | noneLiteral => exact .of_literal ho hspells
  case keyValue =>
    rw [mem_singleton.1 ho] at hspells
    obtain ⟨key, rest, rfl, hkey, hrest⟩ := hspells.tree_of_visited (by decide)
    obtain ⟨value, rest', rfl, hvalue, hrest'⟩ := hrest.tree_of_visited (by decide)
    rw [hrest'.tree_nil]
    exact .pair hkey hvalue
  case stringLiteral =>
    exact .string (hspells.forall_tokens_of_mem ho (by decide))
  case compOp =>
    exact .operator (hspells.forall_tokens_of_mem ho (by decide))
  case argList =>
    exact .items (.inl rfl) (hspells.forall_visited_of_mem ho (by decide))
  case testListComp =>
    exact .items (.inr rfl) (hspells.forall_visited_of_mem ho (by decide))
  case dictOrSet => exact .of_dictOrSet ho hspells
  all_goals cases hrule

theorem Tree.form_of_parse {source : String} (h : parse source = .ok t) {id : Nat} {span : Span}
    (hmem : node id rule span cs ∈ t.nodes) (hrule : rule.isFormed ∨ rule.isRefused) : Form rule cs := by
  rcases hrule with hrule | hrule
  · exact (follows_of_parse h _ hmem).form hrule
  · exact .refused hrule

end Trees

end QueryScribe
