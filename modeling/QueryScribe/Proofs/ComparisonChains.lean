import QueryScribe.Proofs.Expression.Regrouping
import QueryScribe.Proofs.Expression.Value
import QueryScribe.Proofs.RoundTrip

/-!
# Compiled chains of comparisons

The code for a program of one plain expression is read to the expression with each link of a chain as a
conjunct on its own (`compiled_chains_keep_value`). It has the value of the source whatever literals and
operators stand for, unless a negation applies to a chain without parentheses, which then takes hold of
the first link only (`negation_takes_first_link`).
-/

namespace QueryScribe

theorem parse_of_plain {s : Tree} (hs : s.Plain) (hrule : s.rule? = some .smallStmt) :
    ∃ t, parse (trimmed (s.expr.text .python)) = .ok t ∧ t.expr = s.expr.unchained := by
  have hne : s.rule? ≠ some .notTest ∧ s.rule? ≠ some .comparison := by
    rw [hrule]
    decide
  obtain ⟨u, hu⟩ := (hs.regrouped_cases (Tree.isNode_of_rule? hrule)).2 hne.1 hne.2
  have hrule' : u.rule? = some .smallStmt := (Tree.rule?_of_face hu.face).trans hrule
  have hplain := hu.unchained.plain (Tree.isNode_of_rule? hrule')
  obtain ⟨t, hparse, hbare⟩ := parse_of_linked hplain hu.unchained.linked hrule' 0 0 ⟨0, 0⟩ ⟨0, 0⟩
  rw [hu.expr, (hs.formed (Tree.isVisited_of_smallStmt hrule)).text_unchained] at hparse
  refine ⟨t, hparse, ?_⟩
  calc t.expr
    _ = t.bare.expr := (Tree.expr_bare t).symm
    _ = (Tree.node 0 .fileInput ⟨0, 0⟩ [Tree.statement 0 0 ⟨0, 0⟩ ⟨0, 0⟩ u]).bare.expr := by
      rw [hbare]
      rfl
    _ = u.expr := by
      rw [Tree.expr_bare]
      rfl
    _ = s.expr.unchained := hu.expr

/-- A source that is one plain expression compiles, and the code is read to the expression with each
conjunct on its own. Both have the same value, whatever literals and operators stand for, if no negation
applies to a chain. -/
theorem compiled_chains_keep_value {source : String} {t : Tree} {options : Options}
    (hparse : parse source = .ok t) (hplain : ∀ s ∈ t.nodes, s.isPlain = true)
    (hlength : options.exceeded source.length = none) :
    ∃ output t', compile .python options source = .ok output ∧ parse output.code = .ok t' ∧
      t'.expr = t.expr.unchained ∧
      (t.expr.isScoped = true → ∀ (V : Type) (I : Evaluation V), I.value t'.expr = I.value t.expr) := by
  obtain ⟨-, -, -, -, s, -, hsmall, hs, hexpr, -⟩ := Tree.exists_statement_of_parse hparse hplain
  obtain ⟨output, hcompile, hcode⟩ :=
    compile_of_plain hparse hplain (fun u _ => u.isWritable_python) hlength
  obtain ⟨t', hparse', hexpr'⟩ := parse_of_plain hs hsmall
  have htext : output.code = trimmed (s.expr.text .python) := by
    rw [hcode, hexpr]
    simp [Target.python]
  refine ⟨output, t', hcompile, htext ▸ hparse', hexpr ▸ hexpr', fun hscoped V I => ?_⟩
  rw [hexpr', hexpr]
  exact I.value_unchained (hs.formed (Tree.isVisited_of_smallStmt hsmall)) (hexpr ▸ hscoped)

/-- A chain below a conjunction, in parentheses and in a disjunction. -/
theorem chains_keep_value_in_parentheses :
    ∃ t, parse "1 < 2+3 <= 4 and not (5 > 6*7 >= 8) or not True == 9" = .ok t ∧
      (∀ s ∈ t.nodes, s.isPlain = true) ∧ t.expr.isScoped = true ∧
      ∃ output t', compile .python {} "1 < 2+3 <= 4 and not (5 > 6*7 >= 8) or not True == 9" = .ok output ∧
        parse output.code = .ok t' ∧ t'.expr = t.expr.unchained ∧
        (t.expr.isScoped = true →
          ∀ (V : Type) (I : Evaluation V), I.value t'.expr = I.value t.expr) := by
  have h : ∃ t ∈ (parse "1 < 2+3 <= 4 and not (5 > 6*7 >= 8) or not True == 9").toOption,
      (∀ s ∈ t.nodes, s.isPlain = true) ∧ t.expr.isScoped = true := by
    decide +kernel
  obtain ⟨t, ht, hplain, hscoped⟩ := h
  have hparse := eq_ok_of_mem_toOption ht
  exact ⟨t, hparse, hplain, hscoped, compiled_chains_keep_value hparse hplain rfl⟩

/-! ## Integers -/

/-- Integers and truth values. -/
inductive Scalar
  | int (n : Int)
  | bool (b : Bool)
deriving DecidableEq

namespace Scalar

/-- The number that a value counts as. -/
def number : Scalar → Int
  | int n => n
  | bool b => b.toNat

/-- The values of literals. -/
def literal : ValueType → String → Option Scalar
  | .long, text => (Numeral.read? 10 text.toList).map int
  | .hex, text => (Numeral.read? 16 text.toList).map int
  | .octal, text => (Numeral.read? 8 text.toList).map int
  | .binary, text => (Numeral.read? 2 text.toList).map int
  | .bool, text => some (bool (text == "True"))
  | _, _ => none

/-- Comparisons of numbers. -/
def compare (op : String) (a b : Scalar) : Option Scalar :=
  match op with
  | "<" => some (bool (a.number < b.number))
  | ">" => some (bool (a.number > b.number))
  | "<=" => some (bool (a.number ≤ b.number))
  | ">=" => some (bool (a.number ≥ b.number))
  | "==" => some (bool (a.number == b.number))
  | "!=" => some (bool (a.number != b.number))
  | _ => none

/-- Operations whose results are integers. -/
def operate (op : String) (a b : Scalar) : Option Scalar :=
  match op with
  | "+" => some (int (a.number + b.number))
  | "-" => some (int (a.number - b.number))
  | "*" => some (int (a.number * b.number))
  | "//" => if b.number = 0 then none else some (int (a.number.fdiv b.number))
  | "%" => if b.number = 0 then none else some (int (a.number.fmod b.number))
  | _ => none

/-- Signs before a number. -/
def sign (op : String) (a : Scalar) : Option Scalar :=
  match op with
  | "+" => some (int a.number)
  | "-" => some (int (-a.number))
  | "~" => some (int (-a.number - 1))
  | _ => none

end Scalar

/-- Integers and truth values under the operators whose results are among them. -/
def Evaluation.integers : Evaluation Scalar where
  truth v := v.number != 0
  ofBool := .bool
  literal := Scalar.literal
  array _ := none
  document _ _ := none
  compare := Scalar.compare
  operate := Scalar.operate
  sign := Scalar.sign
  power base exponent :=
    if exponent.number < 0 then none else some (.int (base.number ^ exponent.number.toNat))

/-- The negation of a chain is read back as the negation of its first link, which has another value. -/
theorem negation_takes_first_link :
    ∃ t output t', parse "not 2 < 1 < 0" = .ok t ∧ compile .python {} "not 2 < 1 < 0" = .ok output ∧
      output.code = "not 2 < 1 and 1 < 0" ∧ parse output.code = .ok t' ∧
      Evaluation.integers.value t.expr = some (.bool true) ∧
      Evaluation.integers.value t'.expr = some (.bool false) := by
  have h : ∃ t ∈ (parse "not 2 < 1 < 0").toOption,
      ∃ output ∈ (compile .python {} "not 2 < 1 < 0").toOption, output.code = "not 2 < 1 and 1 < 0" ∧
      ∃ t' ∈ (parse output.code).toOption, Evaluation.integers.value t.expr = some (.bool true) ∧
        Evaluation.integers.value t'.expr = some (.bool false) := by
    decide +kernel
  obtain ⟨t, ht, output, houtput, hcode, t', ht', hvalue⟩ := h
  exact ⟨t, output, t', eq_ok_of_mem_toOption ht, eq_ok_of_mem_toOption houtput, hcode,
    eq_ok_of_mem_toOption ht', hvalue⟩

end QueryScribe
