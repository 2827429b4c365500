import QueryScribe.Proofs.Expression.Chains

/-!
# Values of expressions

What an expression evaluates to, whatever its literals and operators stand for (`Evaluation.value`). A
logical operator gives the value of the operand that decides it, and the operands after that one are not
evaluated. A chain of comparisons is the conjunction of its links.

An expression with each conjunct on its own has the same value (`Evaluation.value_unchained`), unless a
negation applies to a chain: the negation then takes hold of the first link only.
-/

namespace QueryScribe

open Expr

/-- What literals and operators stand for. Where there is no value, evaluation fails. -/
structure Evaluation (V : Type) where
  /-- Whether a value counts as true. -/
  truth : V → Bool
  /-- The truth values. -/
  ofBool : Bool → V
  /-- Literals, by type and text. -/
  literal : ValueType → String → Option V
  /-- Arrays of elements. -/
  array : List V → Option V
  /-- Documents of keys and values. -/
  document : List V → List V → Option V
  /-- Comparisons, by the operator. -/
  compare : String → V → V → Option V
  /-- Operations on two values, by the operator. -/
  operate : String → V → V → Option V
  /-- Signs before a value. -/
  sign : String → V → Option V
  /-- Powers. -/
  power : V → V → Option V

namespace Evaluation

variable {V : Type} (I : Evaluation V)

/-- The first value that counts as false, or else the last one. -/
def all : List (Option V) → Option V
  | [] => some (I.ofBool true)
  | [v] => v
  | v :: vs => v.bind fun v => if I.truth v then all vs else some v

/-- The first value that counts as true, or else the last one. -/
def any : List (Option V) → Option V
  | [] => some (I.ofBool false)
  | [v] => v
  | v :: vs => v.bind fun v => if I.truth v then some v else any vs

/-- The values of the links of a chain. -/
def links : List (Option V) → List String → List (Option V)
  | a :: b :: rest, op :: ops => (a.bind fun a => b.bind (I.compare op a)) :: links (b :: rest) ops
  | _, _ => []

mutual

/-- The value of an expression. -/
def value : Expr → Option V
  | .literal type text => I.literal type text
  | .parenthesized e => value e
  | .array es => ((values es).mapM id).bind I.array
  | .document keys items =>
    ((values keys).mapM id).bind fun keys => ((values items).mapM id).bind (I.document keys)
  | .disjunction es => I.any (values es)
  | .conjunction es => I.all (values es)
  | .negation e => (value e).map fun v => I.ofBool !I.truth v
  | .comparison operands ops => I.all (I.links (values operands) ops)
  | .operation op a b => (value a).bind fun a => (value b).bind (I.operate op a)
  | .sign op e => (value e).bind (I.sign op)
  | .power base exponent => (value base).bind fun base => (value exponent).bind (I.power base)

/-- The values of expressions one by one. -/
def values : List Expr → List (Option V)
  | [] => []
  | e :: es => value e :: values es

end

theorem values_eq_map (es : List Expr) : I.values es = es.map I.value := by
  induction es with
  | nil => rfl
  | cons e es ih => rw [values, List.map_cons, ih]

/-! ## Conjunctions -/

theorem all_cons {v : Option V} {vs : List (Option V)} (h : vs ≠ []) :
    I.all (v :: vs) = v.bind fun v => if I.truth v then I.all vs else some v := by
  cases vs with
  | nil => exact absurd rfl h
  | cons => rfl

theorem all_append {vs ws : List (Option V)} (hvs : vs ≠ []) (hws : ws ≠ []) :
    I.all (vs ++ ws) = I.all (I.all vs :: ws) := by
  induction vs with
  | nil => exact absurd rfl hvs
  | cons v vs ih =>
    cases vs with
    | nil => rfl
    | cons u vs =>
      rw [List.cons_append, I.all_cons (by simp), ih (List.cons_ne_nil _ _), I.all_cons hws,
        I.all_cons hws, I.all_cons (List.cons_ne_nil _ _), Option.bind_assoc]
      congr 1
      funext v
      by_cases hv : I.truth v = true
      · rw [if_pos hv, if_pos hv]
      · rw [if_neg hv, if_neg hv, Option.bind_some, if_neg hv]

theorem all_flatMap {α : Type} {f : α → List (Option V)} {xs : List α} (hne : xs ≠ [])
    (h : ∀ x ∈ xs, f x ≠ []) : I.all (xs.flatMap f) = I.all (xs.map fun x => I.all (f x)) := by
  induction xs with
  | nil => exact absurd rfl hne
  | cons x xs ih =>
    obtain ⟨hx, hxs⟩ := List.forall_mem_cons.1 h
    cases xs with
    | nil => rw [List.flatMap_singleton]; rfl
    | cons y ys =>
      have hflat : (y :: ys).flatMap f ≠ [] := by
        rw [List.flatMap_cons]
        exact List.append_ne_nil_of_left_ne_nil (hxs y List.mem_cons_self) _
      rw [List.flatMap_cons, I.all_append hx hflat, I.all_cons hflat, ih (List.cons_ne_nil _ _) hxs]
      rfl

theorem value_joined {es : List Expr} (h : es ≠ []) :
    I.value (joined .conjunction es) = I.all (es.map I.value) := by
  rcases es with _ | ⟨e, _ | ⟨e', es⟩⟩
  · exact absurd rfl h
  · rfl
  · rw [← I.values_eq_map]
    rfl

theorem map_value_links (operands : List Expr) (ops : List String) :
    (Expr.links operands ops).map I.value = I.links (operands.map I.value) ops := by
  fun_induction Expr.links operands ops with
  | case1 a b rest op ops ih => exact congrArg (_ :: ·) ih
  | case2 operands ops hno =>
    rcases operands with _ | ⟨_, _ | _⟩
    all_goals rcases ops with _ | _
    all_goals first | rfl | exact (hno _ _ _ _ _ rfl rfl).elim

end Evaluation

/-! ## Negations of chains -/

namespace Expr

/-- Whether the text of an expression is that of several conjuncts, the first of which may be negated. -/
def isSpread : Expr → Bool
  | conjunction _ => true
  | comparison _ ops => ops.length ≠ 1
  | negation e => isSpread e
  | _ => false

mutual

/-- Whether negations have the scope that their texts have: none applies to a conjunction or to a chain of
comparisons without parentheses around it. -/
def isScoped : Expr → Bool
  | literal _ _ => true
  | parenthesized e => isScoped e
  | array es => areScoped es
  | document keys values => areScoped keys && areScoped values
  | disjunction es => areScoped es
  | conjunction es => areScoped es
  | negation e => !isSpread e && isScoped e
  | comparison operands _ => areScoped operands
  | operation _ a b => isScoped a && isScoped b
  | sign _ e => isScoped e
  | power base exponent => isScoped base && isScoped exponent

/-- Whether all of some expressions are scoped. -/
def areScoped : List Expr → Bool
  | [] => true
  | e :: es => isScoped e && areScoped es

end

theorem areScoped_iff {es : List Expr} : areScoped es = true ↔ ∀ e ∈ es, e.isScoped = true := by
  induction es with
  | nil => simp [areScoped]
  | cons e es ih => rw [areScoped, Bool.and_eq_true, ih, List.forall_mem_cons]

theorem Formed.exists_conjunct {e : Expr} (h : e.Formed) (hspread : e.isSpread = false) :
    ∃ c, e.conjuncts = [c] := by
  induction h with
  | conjunction => cases hspread
  | negation _ ih =>
    obtain ⟨c, hc⟩ := ih hspread
    exact ⟨_, by rw [conjuncts, hc]; rfl⟩
  | @comparison a b op rest ops hlength =>
    have hops : ops = [] := by simpa [isSpread] using hspread
    subst hops
    obtain rfl := List.eq_nil_of_length_eq_zero hlength
    exact ⟨_, rfl⟩
  | literal | parenthesized | array | document | disjunction | operation | sign | power => exact ⟨_, rfl⟩

end Expr

namespace Evaluation

variable {V : Type} (I : Evaluation V)

theorem values_unchainedIn {es : List Expr} (h : ∀ e ∈ es, I.value e.unchained = I.value e) :
    I.values (unchainedIn es) = I.values es := by
  rw [unchainedIn_eq_map, values_eq_map, values_eq_map, List.map_map]
  exact List.map_congr_left h

/-- The conjuncts of a scoped expression have its value together. -/
theorem all_conjuncts {e : Expr} (h : e.Formed) (hscoped : e.isScoped = true) :
    I.all (e.conjuncts.map I.value) = I.value e := by
  -- The value of an operand that the induction is about.
  have hoperand : ∀ {e : Expr}, e.Formed → I.all (e.conjuncts.map I.value) = I.value e →
      I.value e.unchained = I.value e := by
    intro e he hall
    rw [unchained, I.value_joined he.conjuncts_ne_nil, hall]
  induction h with
  | literal => rfl
  | parenthesized he ih => exact hoperand he (ih hscoped)
  | @array es hes ih =>
    simp only [isScoped, areScoped_iff] at hscoped
    have hsame := I.values_unchainedIn fun e he => hoperand (hes e he) (ih e he (hscoped e he))
    exact congrArg (fun vs => (vs.mapM id).bind I.array) hsame
  | @document keys items hkeys hitems ihkeys ihitems =>
    simp only [isScoped, Bool.and_eq_true, areScoped_iff] at hscoped
    have hfirst := I.values_unchainedIn fun e he => hoperand (hkeys e he) (ihkeys e he (hscoped.1 e he))
    have hsecond := I.values_unchainedIn fun e he =>
      hoperand (hitems e he) (ihitems e he (hscoped.2 e he))
    exact congrArg₂ (fun ks vs => (ks.mapM id).bind fun ks => (vs.mapM id).bind (I.document ks)) hfirst hsecond
  | @disjunction es _ hes ih =>
    simp only [isScoped, areScoped_iff] at hscoped
    have hsame := I.values_unchainedIn fun e he => hoperand (hes e he) (ih e he (hscoped e he))
    exact congrArg I.any hsame
  | @conjunction es hne hes ih =>
    simp only [isScoped, areScoped_iff] at hscoped
    rw [conjuncts, conjunctsIn_eq_flatMap, List.map_flatMap, I.all_flatMap hne]
    · rw [value, values_eq_map]
      exact congrArg I.all (List.map_congr_left fun e he => ih e he (hscoped e he))
    · exact fun e he hnil => (hes e he).conjuncts_ne_nil (List.map_eq_nil_iff.1 hnil)
  | @negation e he ih =>
    simp only [isScoped, Bool.and_eq_true, Bool.not_eq_true'] at hscoped
    obtain ⟨c, hc⟩ := he.exists_conjunct hscoped.1
    have hvalue : I.value c = I.value e := by
      rw [← ih hscoped.2, hc]
      rfl
    rw [conjuncts, hc]
    exact congrArg (Option.map fun v => I.ofBool !I.truth v) hvalue
  | @comparison a b op rest ops _ hes ih =>
    simp only [isScoped, areScoped_iff] at hscoped
    have hsame := I.values_unchainedIn fun e he => hoperand (hes e he) (ih e he (hscoped e he))
    rw [conjuncts, map_value_links, ← values_eq_map, hsame]
    rfl
  | @operation op a b ha hb iha ihb =>
    simp only [isScoped, Bool.and_eq_true] at hscoped
    exact congrArg₂ (fun v w : Option V => v.bind fun v => w.bind (I.operate op v))
      (hoperand ha (iha hscoped.1)) (hoperand hb (ihb hscoped.2))
  | @sign op e he ih => exact congrArg (fun v : Option V => v.bind (I.sign op)) (hoperand he (ih hscoped))
  | @power base exponent hbase hexponent ihbase ihexponent =>
    simp only [isScoped, Bool.and_eq_true] at hscoped
    exact congrArg₂ (fun v w : Option V => v.bind fun v => w.bind (I.power v))
      (hoperand hbase (ihbase hscoped.1)) (hoperand hexponent (ihexponent hscoped.2))

theorem value_unchained {e : Expr} (h : e.Formed) (hscoped : e.isScoped = true) :
    I.value e.unchained = I.value e := by
  rw [unchained, I.value_joined h.conjuncts_ne_nil, I.all_conjuncts h hscoped]

end Evaluation

end QueryScribe
