import QueryScribe.Proofs.Expression.Chains
import QueryScribe.Proofs.Precedence.Texts

/-!
# Expressions as phrases

The phrase that groups operands as an expression does (`image`). Conjunctions and disjunctions group from
left to right, and the links of a chain of comparisons belong to the conjunction that the chain stands in.
The text of the phrase is the text that the target writes for the expression (`text_image`).
-/

namespace QueryScribe.Java

open List

/-! ## Images -/

/-- Phrases with an operator between them, from left to right. -/
def joinLeft (op : String) : List Phrase → Phrase
  | [] => .word ""
  | e :: es => es.foldl (.binary op) e

/-- The phrase of a comparison. -/
def link (op : String) (a b : Phrase) : Phrase :=
  match Equality.ofSpelling? op, Membership.ofSpelling? op with
  | some .equal, _ | some .same, _ => .binary "==" a b
  | some .unequal, _ | some .distinct, _ => .binary "!=" a b
  | none, some .among => .call b "contains" [a]
  | none, some .notAmong => .sign "!" (.call b "contains" [a])
  | none, none => .binary op a b

/-- The phrases of the links of a chain. -/
def links : List Phrase → List String → List Phrase
  | a :: b :: rest, op :: ops => link op a b :: links (b :: rest) ops
  | _, _ => []

/-- The phrase of an operation. -/
def operation (op : String) (a b : Phrase) : Phrase :=
  if op = "//" then .call (.word "Math") "floorDiv" [a, b] else .binary op a b

mutual

/-- The phrases that the conjunction around an expression joins for it. Documents and powers have none. -/
def parts : Expr → List Phrase
  | .literal type text => [.word (Target.java.literalText type text)]
  | .parenthesized e => [.group (joinLeft "&&" (parts e))]
  | .array es => [.call (.word "Arrays") "asList" (images es)]
  | .document _ _ => []
  | .disjunction es => [joinLeft "||" (images es)]
  | .conjunction es => partsIn es
  | .negation e => [.sign "!" (joinLeft "&&" (parts e))]
  | .comparison operands ops => links (images operands) ops
  | .operation op a b => [operation op (joinLeft "&&" (parts a)) (joinLeft "&&" (parts b))]
  | .sign op e => [.sign op (joinLeft "&&" (parts e))]
  | .power _ _ => []

/-- The phrases of expressions one by one. -/
def images : List Expr → List Phrase
  | [] => []
  | e :: es => joinLeft "&&" (parts e) :: images es

/-- The phrases that a conjunction joins. -/
def partsIn : List Expr → List Phrase
  | [] => []
  | e :: es => parts e ++ partsIn es

end

/-- The phrase that groups operands as an expression does. -/
def image (e : Expr) : Phrase := joinLeft "&&" (parts e)

theorem images_eq_map (es : List Expr) : images es = es.map image := by
  induction es with
  | nil => rfl
  | cons e es ih =>
    rw [images, map_cons, ih]
    rfl

theorem partsIn_eq_flatMap (es : List Expr) : partsIn es = es.flatMap parts := by
  induction es with
  | nil => rfl
  | cons e es ih => rw [partsIn, flatMap_cons, ih]

/-- Operators of comparisons, without blanks. -/
def comparisons : List String := ["<", ">", "==", ">=", "<=", "!=", "in", "notin", "is", "isnot"]

/-- Operators between numbers. -/
def operators : List String := ["|", "^", "&", "<<", ">>", "+", "-", "*", "/", "//", "%"]

/-- Expressions of words, arrays and operators that can be told apart in a text. -/
inductive Expressible : Expr → Prop
  | literal {type : ValueType} {text : String} : isWord (Target.java.literalText type text) = true →
    Expressible (.literal type text)
  | parenthesized {e : Expr} : Expressible e → Expressible (.parenthesized e)
  | array {es : List Expr} : (∀ e ∈ es, Expressible e) → Expressible (.array es)
  | disjunction {es : List Expr} : es ≠ [] → (∀ e ∈ es, Expressible e) → Expressible (.disjunction es)
  | conjunction {es : List Expr} : es ≠ [] → (∀ e ∈ es, Expressible e) → Expressible (.conjunction es)
  | negation {e : Expr} : Expressible e → Expressible (.negation e)
  | comparison {a b op rest ops} : (∀ e ∈ a :: b :: rest, Expressible e) →
    (∀ op' ∈ op :: ops, op' ∈ comparisons) → Expressible (.comparison (a :: b :: rest) (op :: ops))
  | operation {op : String} {a b : Expr} : op ∈ operators → Expressible a → Expressible b →
    Expressible (.operation op a b)
  | sign {op : String} {e : Expr} : op ∈ ["+", "-", "~"] → Expressible e → Expressible (.sign op e)

variable {e : Expr} {es : List Phrase} {op : String} {a b : Phrase}

theorem Expressible.parts_ne_nil (h : Expressible e) : parts e ≠ [] := by
  induction h with
  | conjunction hne _ ih =>
    obtain ⟨e, es, rfl⟩ := exists_cons_of_ne_nil hne
    rw [parts, partsIn]
    exact append_ne_nil_of_left_ne_nil (ih e (.head _)) _
  | literal | parenthesized | array | disjunction | negation | comparison | operation | sign =>
    exact cons_ne_nil _ _

/-! ## Texts -/

theorem text_joinLeft (op : String) (h : es ≠ []) :
    (joinLeft op es).text = (" " ++ op ++ " ").intercalate (es.map Phrase.text) := by
  obtain ⟨e, es, rfl⟩ := exists_cons_of_ne_nil h
  clear h
  rw [joinLeft]
  induction es generalizing e with
  | nil => simp
  | cons f fs ih =>
    rw [foldl_cons, ih, map_cons, map_cons, map_cons, String.intercalate_cons_cons]
    cases fs with
    | nil => simp [Phrase.text, String.append_assoc]
    | cons g gs =>
      rw [map_cons, String.intercalate_cons_cons, String.intercalate_cons_cons]
      simp [Phrase.text, String.append_assoc]

theorem argText_eq (es : List Phrase) : Phrase.argText es = ", ".intercalate (es.map Phrase.text) := by
  cases es with
  | nil => rfl
  | cons e es =>
    rw [Phrase.argText, map_cons]
    induction es generalizing e with
    | nil => simp [Phrase.restText]
    | cons f fs ih =>
      rw [Phrase.restText, map_cons, String.intercalate_cons_cons, ← ih, String.append_assoc,
        String.append_assoc]

theorem text_link (op : String) (a b : Phrase) :
    (link op a b).text = Target.java.compare op a.text b.text := by
  unfold link Target.compare
  split
  all_goals simp_all [Phrase.text, Target.java, Phrase.argText, Phrase.restText, String.append_assoc]

theorem text_links (operands : List Phrase) (ops : List String) : (links operands ops).map Phrase.text =
    Renderer.links Target.java.compare (operands.map Phrase.text) ops := by
  fun_induction links operands ops with
  | case1 a b rest op ops ih =>
    rw [map_cons, ih, text_link]
    rfl
  | case2 operands ops hno =>
    rcases operands with _ | ⟨_, _ | _⟩
    all_goals rcases ops with _ | _
    all_goals first | rfl | exact (hno _ _ _ _ _ rfl rfl).elim

theorem text_operation (op : String) (a b : Phrase) :
    (operation op a b).text = Target.java.operate op a.text b.text := by
  unfold operation Target.operate
  split
  · simp [Phrase.text, Phrase.argText, Phrase.restText, Target.java, String.append_assoc]
  · rfl

theorem joinLinks_eq {links : List String} (h : links ≠ []) :
    Target.java.joinLinks links = " && ".intercalate links := by
  match links with
  | [] => exact absurd rfl h
  | [link] => rw [Target.joinLinks, String.intercalate_singleton]
  | _ :: _ :: _ => rfl

/-- The text of an expression is that of its phrases as a conjunction. -/
theorem Expressible.text_eq (h : Expressible e) :
    e.text .java = " && ".intercalate ((parts e).map Phrase.text) := by
  -- The texts of operands are those of their phrases.
  have hone : ∀ {e : Expr}, Expressible e → e.text .java = " && ".intercalate ((parts e).map Phrase.text) →
      (joinLeft "&&" (parts e)).text = e.text .java := fun he ih => by
    rw [text_joinLeft "&&" he.parts_ne_nil, ih]
    rfl
  have hall : ∀ {es : List Expr}, (∀ e ∈ es, Expressible e) →
      (∀ e ∈ es, e.text .java = " && ".intercalate ((parts e).map Phrase.text)) →
      (images es).map Phrase.text = Expr.texts .java es := fun hes ih => by
    rw [images_eq_map, Expr.texts_eq_map, map_map]
    exact map_congr_left fun e he => hone (hes e he) (ih e he)
  induction h with
  | literal => rw [parts, map_singleton, String.intercalate_singleton]; rfl
  | parenthesized he ih =>
    rw [parts, map_singleton, String.intercalate_singleton, Phrase.text, hone he ih]
    rfl
  | array hes ih =>
    rw [parts, map_singleton, String.intercalate_singleton, Phrase.text, argText_eq, hall hes ih]
    rfl
  | @disjunction es hne hes ih =>
    have himages : images es ≠ [] := by
      rw [images_eq_map]
      exact fun h => hne (map_eq_nil_iff.1 h)
    rw [parts, map_singleton, String.intercalate_singleton, text_joinLeft "||" himages, hall hes ih]
    rfl
  | @conjunction es hne hes ih =>
    have hrows : ∀ row ∈ es.map fun e => (parts e).map Phrase.text, row ≠ [] := by
      intro row hrow
      obtain ⟨e, he, rfl⟩ := mem_map.1 hrow
      exact fun h => (hes e he).parts_ne_nil (map_eq_nil_iff.1 h)
    have hflatten : (partsIn es).map Phrase.text = (es.map fun e => (parts e).map Phrase.text).flatten := by
      rw [partsIn_eq_flatMap, map_flatMap, flatMap_def]
    rw [parts, hflatten, Expr.intercalate_flatten _ hrows, map_map, Expr.text, Expr.texts_eq_map]
    exact congrArg " && ".intercalate (map_congr_left ih)
  | negation he ih =>
    rw [parts, map_singleton, String.intercalate_singleton, Phrase.text, hone he ih]
    rfl
  | comparison hes _ ih =>
    rw [parts, text_links, hall hes ih, Expr.text, joinLinks_eq]
    exact cons_ne_nil _ _
  | operation _ ha hb iha ihb =>
    rw [parts, map_singleton, String.intercalate_singleton, text_operation, hone ha iha, hone hb ihb]
    rfl
  | sign _ he ih =>
    rw [parts, map_singleton, String.intercalate_singleton, Phrase.text, hone he ih]
    rfl

theorem Expressible.text_image (h : Expressible e) : (image e).text = e.text .java := by
  rw [image, text_joinLeft "&&" h.parts_ne_nil, h.text_eq]
  rfl

/-! ## Words and operators -/

theorem isWorded_joinLeft (hop : 0 < strength op) (hne : es ≠ []) (h : ∀ e ∈ es, e.isWorded) :
    (joinLeft op es).isWorded := by
  obtain ⟨e, es, rfl⟩ := exists_cons_of_ne_nil hne
  clear hne
  rw [joinLeft]
  induction es generalizing e with
  | nil => exact h e (.head _)
  | cons f fs ih =>
    obtain ⟨he, hfs⟩ := forall_mem_cons.1 h
    obtain ⟨hf, hfs⟩ := forall_mem_cons.1 hfs
    refine ih _ (forall_mem_cons.2 ⟨?_, hfs⟩)
    simp [Phrase.isWorded, hop, he, hf]

theorem areWorded_iff : Phrase.areWorded es ↔ ∀ e ∈ es, e.isWorded := by
  induction es with
  | nil => simp [Phrase.areWorded]
  | cons e es ih => rw [Phrase.areWorded, Bool.and_eq_true, ih, forall_mem_cons]

theorem isWorded_binary (hop : 0 < strength op) (ha : a.isWorded) (hb : b.isWorded) :
    (Phrase.binary op a b).isWorded := by
  simp [Phrase.isWorded, hop, ha, hb]

theorem isWorded_call {receiver : Phrase} {method : String} {args : List Phrase}
    (hreceiver : receiver.isWorded) (hmethod : isWord method)
    (hargs : ∀ e ∈ args, e.isWorded) : (Phrase.call receiver method args).isWorded := by
  simp [Phrase.isWorded, hreceiver, hmethod, areWorded_iff.2 hargs]

theorem isWorded_link (hop : op ∈ comparisons) (ha : a.isWorded) (hb : b.isWorded) :
    (link op a b).isWorded := by
  have hcontains : (Phrase.call b "contains" [a]).isWorded :=
    isWorded_call hb (by decide) (forall_mem_singleton.2 ha)
  simp only [comparisons, mem_cons, not_mem_nil, or_false] at hop
  rcases hop with rfl | rfl | rfl | rfl | rfl | rfl | rfl | rfl | rfl | rfl
  case inr.inr.inr.inr.inr.inr.inl => exact hcontains
  case inr.inr.inr.inr.inr.inr.inr.inl => exact hcontains
  all_goals exact isWorded_binary (by decide) ha hb

theorem isWorded_operation (hop : op ∈ operators) (ha : a.isWorded) (hb : b.isWorded) :
    (operation op a b).isWorded := by
  have hstrength : ∀ op ∈ operators, op ≠ "//" → 0 < strength op := by decide
  unfold operation
  split
  · refine isWorded_call (by decide) (by decide) ?_
    exact forall_mem_cons.2 ⟨ha, forall_mem_singleton.2 hb⟩
  · exact isWorded_binary (hstrength op hop ‹_›) ha hb

theorem isWorded_links {operands : List Phrase} {ops : List String}
    (hoperands : ∀ e ∈ operands, e.isWorded) (hops : ∀ op ∈ ops, op ∈ comparisons) :
    ∀ p ∈ links operands ops, p.isWorded := by
  fun_induction links operands ops with
  | case1 a b rest op ops ih =>
    obtain ⟨ha, hrest⟩ := forall_mem_cons.1 hoperands
    obtain ⟨hop, hops⟩ := forall_mem_cons.1 hops
    exact forall_mem_cons.2 ⟨isWorded_link hop ha (hrest b (.head _)), ih hrest hops⟩
  | case2 => nofun

/-- The phrases of an expression are made of words and operators. -/
theorem Expressible.isWorded_parts (h : Expressible e) : ∀ p ∈ parts e, p.isWorded := by
  have hone : ∀ {e : Expr}, Expressible e → (∀ p ∈ parts e, p.isWorded) →
      (joinLeft "&&" (parts e)).isWorded := fun he ih =>
    isWorded_joinLeft (by decide) he.parts_ne_nil ih
  have hall : ∀ {es : List Expr}, (∀ e ∈ es, Expressible e) →
      (∀ e ∈ es, ∀ p ∈ parts e, p.isWorded) → ∀ p ∈ images es, p.isWorded := by
    intro es hes ih
    rw [images_eq_map]
    exact forall_mem_map.2 fun e he => hone (hes e he) (ih e he)
  induction h with
  | literal hword => exact forall_mem_singleton.2 hword
  | parenthesized he ih => exact forall_mem_singleton.2 (hone he ih)
  | array hes ih =>
    exact forall_mem_singleton.2 (isWorded_call (by decide) (by decide) (hall hes ih))
  | @disjunction es hne hes ih =>
    refine forall_mem_singleton.2 (isWorded_joinLeft (by decide) ?_ (hall hes ih))
    rw [images_eq_map]
    exact fun h => hne (map_eq_nil_iff.1 h)
  | conjunction _ _ ih =>
    intro p hp
    rw [parts, partsIn_eq_flatMap] at hp
    obtain ⟨e, he, hp⟩ := mem_flatMap.1 hp
    exact ih e he p hp
  | negation he ih => exact forall_mem_singleton.2 (hone he ih)
  | comparison hes hops ih => exact isWorded_links (hall hes ih) hops
  | operation hop ha hb iha ihb =>
    exact forall_mem_singleton.2 (isWorded_operation hop (hone ha iha) (hone hb ihb))
  | @sign op e hop he ih =>
    have hsigns : ∀ op ∈ ["+", "-", "~"], signs.contains op := by decide
    refine forall_mem_singleton.2 ?_
    rw [Phrase.isWorded, hsigns op hop, hone he ih]
    rfl

theorem Expressible.isWorded_image (h : Expressible e) : (image e).isWorded :=
  isWorded_joinLeft (by decide) h.parts_ne_nil h.isWorded_parts

end QueryScribe.Java
