import QueryScribe.Proofs.Expression.Printed

/-!
# Chains of comparisons

The target writes a chain of comparisons as the conjunction of its links, without parentheses. What stands
around the chain may then take hold of its first link only: the conjuncts of the text are those of
`Expr.conjuncts`, and the text is that of another expression, in which every comparison has one operator
(`Expr.Formed.text_unchained`).
-/

namespace QueryScribe

open List

namespace Expr

/-! ## Conjuncts -/

/-- The links of a chain of comparisons. -/
def links : List Expr → List String → List Expr
  | a :: b :: rest, op :: ops => comparison [a, b] [op] :: links (b :: rest) ops
  | _, _ => []

/-- Expressions of which the first is negated. -/
def negateFirst : List Expr → List Expr
  | [] => []
  | e :: es => negation e :: es

mutual

/-- What the text of an expression is the conjunction of. A negation takes hold of the first conjunct
only. -/
def conjuncts : Expr → List Expr
  | literal type text => [literal type text]
  | parenthesized e => [parenthesized (joined conjunction (conjuncts e))]
  | array es => [array (unchainedIn es)]
  | document keys values => [document (unchainedIn keys) (unchainedIn values)]
  | disjunction es => [disjunction (unchainedIn es)]
  | conjunction es => conjunctsIn es
  | negation e => negateFirst (conjuncts e)
  | comparison operands ops => links (unchainedIn operands) ops
  | operation op a b =>
    [operation op (joined conjunction (conjuncts a)) (joined conjunction (conjuncts b))]
  | sign op e => [sign op (joined conjunction (conjuncts e))]
  | power base exponent =>
    [power (joined conjunction (conjuncts base)) (joined conjunction (conjuncts exponent))]

/-- Expressions with each conjunct on its own. -/
def unchainedIn : List Expr → List Expr
  | [] => []
  | e :: es => joined conjunction (conjuncts e) :: unchainedIn es

/-- The conjuncts of expressions in a row. -/
def conjunctsIn : List Expr → List Expr
  | [] => []
  | e :: es => conjuncts e ++ conjunctsIn es

end

/-- The expression with each conjunct on its own, as the text is read. -/
def unchained (e : Expr) : Expr := joined conjunction e.conjuncts

theorem unchainedIn_eq_map (es : List Expr) : unchainedIn es = es.map unchained := by
  induction es with
  | nil => rfl
  | cons e es ih =>
    rw [unchainedIn, map_cons, ih]
    rfl

theorem conjunctsIn_eq_flatMap (es : List Expr) : conjunctsIn es = es.flatMap conjuncts := by
  induction es with
  | nil => rfl
  | cons e es ih => rw [conjunctsIn, flatMap_cons, ih]

/-! ## Expressions of trees -/

/-- Operators have as many operands as they need. -/
inductive Formed : Expr → Prop
  | literal {type : ValueType} {text : String} : Formed (literal type text)
  | parenthesized {e : Expr} : Formed e → Formed (parenthesized e)
  | array {es : List Expr} : (∀ e ∈ es, Formed e) → Formed (array es)
  | document {keys values : List Expr} : (∀ e ∈ keys, Formed e) → (∀ e ∈ values, Formed e) →
    Formed (document keys values)
  | disjunction {es : List Expr} : es ≠ [] → (∀ e ∈ es, Formed e) → Formed (disjunction es)
  | conjunction {es : List Expr} : es ≠ [] → (∀ e ∈ es, Formed e) → Formed (conjunction es)
  | negation {e : Expr} : Formed e → Formed (negation e)
  | comparison {a b op rest ops} : rest.length = ops.length → (∀ e ∈ a :: b :: rest, Formed e) →
    Formed (comparison (a :: b :: rest) (op :: ops))
  | operation {op : String} {a b : Expr} : Formed a → Formed b → Formed (operation op a b)
  | sign {op : String} {e : Expr} : Formed e → Formed (sign op e)
  | power {base exponent : Expr} : Formed base → Formed exponent → Formed (power base exponent)

theorem Formed.conjuncts_ne_nil {e : Expr} (h : e.Formed) : e.conjuncts ≠ [] := by
  induction h with
  | conjunction hne _ ih =>
    obtain ⟨e, es, rfl⟩ := exists_cons_of_ne_nil hne
    rw [conjuncts, conjunctsIn]
    exact append_ne_nil_of_left_ne_nil (ih e (.head _)) _
  | negation _ ih =>
    obtain ⟨e, es, hes⟩ := exists_cons_of_ne_nil ih
    rw [conjuncts, hes]
    exact cons_ne_nil _ _
  | comparison => exact cons_ne_nil _ _
  | literal | parenthesized | array | document | disjunction | operation | sign | power =>
    exact cons_ne_nil _ _

/-! ## Texts -/

theorem intercalate_flatten (between : String) {rows : List (List String)} (h : ∀ row ∈ rows, row ≠ []) :
    between.intercalate rows.flatten = between.intercalate (rows.map between.intercalate) := by
  induction rows with
  | nil => rfl
  | cons row rows ih =>
    obtain ⟨hrow, hrows⟩ := forall_mem_cons.1 h
    rw [flatten_cons, map_cons]
    cases rows with
    | nil => simp
    | cons row' rows =>
      have hne : (row' :: rows).flatten ≠ [] := by
        rw [flatten_cons]
        exact append_ne_nil_of_left_ne_nil (hrows row' (.head _)) _
      rw [String.intercalate_append_of_ne_nil hrow hne, ih hrows, map_cons,
        String.intercalate_cons_cons]

theorem text_joined {es : List Expr} (h : es ≠ []) :
    (joined conjunction es).text .python = " and ".intercalate (texts .python es) := by
  match es with
  | [] => exact absurd rfl h
  | [e] => rw [joined, texts, texts, String.intercalate_singleton]
  | e :: e' :: es => rfl

theorem texts_links (target : Target) (operands : List Expr) (ops : List String) :
    texts target (links operands ops) = Renderer.links target.compare (texts target operands) ops := by
  fun_induction links operands ops with
  | case1 a b rest op ops ih =>
    rw [texts, ih]
    rfl
  | case2 operands ops hno =>
    unfold Renderer.links
    split
    · rename_i a b rest op ops htexts
      rcases operands with _ | ⟨a', _ | ⟨b', rest'⟩⟩
      · cases htexts
      · cases htexts
      · exact absurd rfl (hno a' b' rest' op ops rfl)
    · rfl

theorem joinLinks_eq {links : List String} (h : links ≠ []) :
    Target.python.joinLinks links = " and ".intercalate links := by
  match links with
  | [] => exact absurd rfl h
  | [link] => rw [Target.joinLinks, String.intercalate_singleton]
  | _ :: _ :: _ => rfl

/-- The text of an expression is the conjunction of its conjuncts. -/
theorem Formed.text_eq {e : Expr} (h : e.Formed) :
    e.text .python = " and ".intercalate (texts .python e.conjuncts) := by
  -- Below the expression the texts are those with each conjunct on its own.
  have hone : ∀ {e : Expr}, e.Formed → e.text .python = " and ".intercalate (texts .python e.conjuncts) →
      e.unchained.text .python = e.text .python := fun hformed ih => by
    rw [unchained, text_joined hformed.conjuncts_ne_nil, ih]
  have hall : ∀ {es : List Expr}, (∀ e ∈ es, e.Formed) →
      (∀ e ∈ es, e.text .python = " and ".intercalate (texts .python e.conjuncts)) →
      texts .python (unchainedIn es) = texts .python es := fun hformed ih => by
    rw [unchainedIn_eq_map, texts_eq_map, texts_eq_map, map_map]
    exact map_congr_left fun e he => hone (hformed e he) (ih e he)
  induction h with
  | literal => rw [conjuncts, texts, texts, String.intercalate_singleton]
  | parenthesized he ih =>
    rw [conjuncts, texts, texts, String.intercalate_singleton, text, text, ← hone he ih]
    rfl
  | array hes ih => rw [conjuncts, texts, texts, String.intercalate_singleton, text, text, hall hes ih]
  | document hkeys hvalues ihkeys ihvalues =>
    rw [conjuncts, texts, texts, String.intercalate_singleton, text, text, hall hkeys ihkeys,
      hall hvalues ihvalues]
  | disjunction _ hes ih =>
    rw [conjuncts, texts, texts, String.intercalate_singleton, text, text, hall hes ih]
  | @conjunction es hne hes ih =>
    have hrows : ∀ row ∈ es.map fun e => texts .python e.conjuncts, row ≠ [] := by
      intro row hrow
      obtain ⟨e, he, rfl⟩ := mem_map.1 hrow
      rw [texts_eq_map]
      exact fun h => (hes e he).conjuncts_ne_nil (map_eq_nil_iff.1 h)
    have hflatten : texts .python (conjunctsIn es) = (es.map fun e => texts .python e.conjuncts).flatten := by
      simp [conjunctsIn_eq_flatMap, texts_eq_map, flatMap_def, Function.comp_def]
    rw [conjuncts, hflatten, intercalate_flatten _ hrows, map_map, text, texts_eq_map]
    exact congrArg " and ".intercalate (map_congr_left ih)
  | @negation e he ih =>
    obtain ⟨first, rest, hconjuncts⟩ := exists_cons_of_ne_nil he.conjuncts_ne_nil
    rw [hconjuncts, texts] at ih
    rw [conjuncts, hconjuncts, negateFirst, texts, text, text, ih]
    cases rest with
    | nil => simp [texts]
    | cons second rest =>
      rw [texts, String.intercalate_cons_cons, String.intercalate_cons_cons]
      simp [Target.python, String.append_assoc]
  | comparison hlength hes ih =>
    rw [conjuncts, texts_links, hall hes ih, text, joinLinks_eq]
    exact cons_ne_nil _ _
  | operation ha hb iha ihb =>
    rw [conjuncts, texts, texts, String.intercalate_singleton, text, text, ← hone ha iha, ← hone hb ihb]
    rfl
  | sign he ih =>
    rw [conjuncts, texts, texts, String.intercalate_singleton, text, text, ← hone he ih]
    rfl
  | power ha hb iha ihb =>
    rw [conjuncts, texts, texts, String.intercalate_singleton, text, text, ← hone ha iha, ← hone hb ihb]
    rfl

theorem Formed.text_unchained {e : Expr} (h : e.Formed) : e.unchained.text .python = e.text .python := by
  rw [unchained, text_joined h.conjuncts_ne_nil, h.text_eq]

end Expr

end QueryScribe
