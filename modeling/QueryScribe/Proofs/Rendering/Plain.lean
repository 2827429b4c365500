import QueryScribe.Proofs.Locality.Visit

/-!
# Plain writing

Query helpers are looked up for one thing only, to write a document as a query, and that is tried in
the idiomatic style only. A renderer that writes plainly therefore does the same as one for the
target without its helpers (`visit_withoutHelpers`). On such a target no attempt is made at all, so
the uses under the codes of the families stay as they are (`Render.Silent`).
-/

namespace QueryScribe

/-- A target that has no helpers. -/
def Target.withoutHelpers (target : Target) : Target := { target with helpers := none }

namespace Renderer

variable (r : Renderer) (t : Tree)

/-- A renderer that writes all nodes plainly, for the target without its helpers. -/
def plainly : Renderer := ⟨r.target.withoutHelpers, r.source, fun _ => r.visit false⟩

/-! ## One step

All forms of nodes read the target, the source and the nodes below through the renderer, so most of
them agree by definition. Those that recurse over a view or a list do so by induction. -/

theorem signedValue_plainly (view : Signed) :
    r.plainly.signedValue t view = r.signedValue t view := by
  induction view generalizing t with
  | literal passed core text => rfl
  | signed passed sign operand view ih => simp only [signedValue, ih]
  | other passed => rfl

theorem numericValue_plainly : r.plainly.numericValue t = r.numericValue t :=
  signedValue_plainly r t _

theorem castSigned_plainly (expected : ValueType) (view : Signed) :
    r.plainly.castSigned false expected t view = r.castSigned false expected t view := by
  induction view generalizing t with
  | literal passed core text => rfl
  | signed passed sign operand view ih => simp only [castSigned, ih]
  | other passed => rfl

theorem cast?_plainly (slot : Slot) : r.plainly.cast? false slot t = r.cast? false slot t := by
  unfold cast? castTo
  simp only [castSigned_plainly]
  rfl

theorem argumentsFrom_plainly (callee : String) (index : Nat) (slots : List Slot)
    (ts : List Tree) : r.plainly.argumentsFrom false callee index slots ts =
      r.argumentsFrom false callee index slots ts := by
  fun_induction argumentsFrom r false callee index slots ts with
  | case1 => rfl
  | case2 index slot _ h => simp [argumentsFrom, h]
  | case3 index slot _ h => simp [argumentsFrom, h]
  | case4 index slot slots t ts ih =>
    rw [argumentsFrom, cast?_plainly, ih]

theorem callArguments_plainly (c : Callee) :
    r.plainly.callArguments false c t = r.callArguments false c t := by
  unfold callArguments arguments
  simp only [argumentsFrom_plainly]

theorem treatedCall_plainly (c : Callee) (treatment : Treatment) :
    r.plainly.treatedCall false c t treatment = r.treatedCall false c t treatment := by
  have harguments := callArguments_plainly r t c
  have hvalue := numericValue_plainly r
  cases treatment with
  | number => simp only [treatedCall, numberCall, harguments, hvalue]; rfl
  | regex => simp only [treatedCall, regexCall, harguments]; rfl
  | code => simp only [treatedCall, codeCall, harguments]; rfl
  | datetime => simp only [treatedCall, datetimeCall, dateArguments, harguments, hvalue]; rfl
  | fromDatetime => simp only [treatedCall, fromDatetimeCall, harguments]; rfl
  | binary => rfl
  | compile => simp only [treatedCall, compileCall, harguments]; rfl
  | objectId => simp only [treatedCall, objectIdCall, harguments]; rfl
  | decimal128 => simp only [treatedCall, decimal128Call, harguments, hvalue]; rfl

theorem call_plainly : r.plainly.call false t = r.call false t := by
  simp only [call, otherCall, treatedCall_plainly, callArguments_plainly]
  rfl

theorem operations_plainly (text : String) (ts : List Tree) :
    r.plainly.operations false text ts = r.operations false text ts := by
  fun_induction operations r false text ts with
  | case1 text id op operand rest ih =>
    rw [operations]
    exact bind_congr ih
  | case2 text ts h => rw [operations]; exact h

theorem operation_plainly : r.plainly.operation false t = r.operation false t := by
  simp only [operation, operations_plainly]
  rfl

theorem ofRule_plainly (rule : Rule) : r.plainly.ofRule false t rule = r.ofRule false t rule := by
  cases rule with
  | functionCall => exact call_plainly r t
  | expr | xorExpr | andExpr | shiftExpr | arithExpr | term =>
    simp only [ofRule, operation_plainly]
    rfl
  | _ => rfl

theorem step_plainly : r.plainly.step false t = r.step false t := by
  cases t with
  | leaf id token => rfl
  | node id rule span children => exact ofRule_plainly r _ rule

/-! ## Every number of levels -/

variable (target : Target) (source : Source) (n : Nat)

theorem source_within : (within target source n).source = source := by
  cases n <;> rfl

theorem plainly_eq_of_visit (h : ∀ t, (within target source n).visit false t =
      (within target.withoutHelpers source n).visit false t) :
    (within target source n).plainly = (within target.withoutHelpers source n).plainly := by
  unfold plainly
  rw [target_within, target_within, source_within, source_within, funext h]
  rfl

/-- Plain writing does not depend on helpers. -/
theorem visit_withoutHelpers :
    (within target source n).visit false t = (within target.withoutHelpers source n).visit false t := by
  induction n generalizing t with
  | zero => rfl
  | succ n ih =>
    have hstep : (within target source n).step false t =
        (within target.withoutHelpers source n).step false t := by
      rw [← step_plainly, plainly_eq_of_visit target source n ih, step_plainly]
    rw [visit_within_succ, visit_within_succ, ih, hstep]

theorem plainly_within : (within target source n).plainly =
    (within target.withoutHelpers source n).plainly :=
  plainly_eq_of_visit target source n fun t => visit_withoutHelpers t target source n

end Renderer

/-! ## Silence -/

namespace Render

variable {α β : Type} {m : Render α}

/-- An action that leaves what is recorded under the codes of the families as it is. -/
def Silent (m : Render α) : Prop :=
  ∀ (j : Journal) (family : Family),
    (exec m j).2.notes.usage.get? family.code = j.notes.usage.get? family.code

namespace Silent

theorem sequential : Sequential fun (α : Type) (m : Render α) => Silent m where
  pure _ _ _ := rfl
  bind {_ _ x f} hx hf j family := by
    rw [exec_bind, ← hx j]
    rcases exec x j with ⟨e | a, j'⟩
    · rfl
    · exact hf a j' family

theorem tryCatch {handle : Fault → Render α} (hm : Silent m) (hhandle : ∀ e, Silent (handle e)) :
    Silent (tryCatch m handle) := by
  intro j family
  rw [exec_tryCatch, ← hm j]
  rcases exec m j with ⟨e | a, j'⟩
  · exact hhandle e j' family
  · rfl

end Silent

end Render

theorem Family.isCode_code (family : Family) : Family.isCode family.code := by
  cases family <;> rfl

/-- Noting the use of a code is silent: under the codes of the families only names are noted. -/
theorem Render.silent_touch (code : Int) : Silent (touch code) := by
  intro j family
  have hne : ¬ (family.code = code ∧ ¬ Family.isCode code) :=
    fun h => h.2 (h.1 ▸ family.isCode_code)
  exact (Usage.get?_touch _ _ _).trans (if_neg hne)

theorem Render.silent_typeOf (t : Tree) : Silent (typeOf t) := by
  refine Silent.sequential.bind (fun _ _ => rfl) fun n => ?_
  split <;> exact fun _ _ => rfl

theorem Render.silent_ownTypeOf (t : Tree) : Silent (ownTypeOf t) := by
  refine Silent.sequential.bind (fun _ _ => rfl) fun n => ?_
  split <;> exact fun _ _ => rfl

theorem Render.silent_ofConversion {α : Type} (e : Except ConversionFault α) :
    Silent (ofConversion e) := by
  intro j family
  cases e <;> rfl

namespace Renderer

open Render (Silent)

/-- Without helpers all steps are silent as soon as those of the nodes below are. -/
theorem silent_related {r : Renderer} (hhelpers : r.target.helpers = none)
    (hr : ∀ b t, Silent (r.visit b t)) (b : Bool) :
    r.Related r b (fun t t' => t = t' ∧ True) fun _ m _ => Silent m where
  target := rfl
  names := rfl
  trees := .of_children fun _ _ _ _ => trivial
  congruence := Silent.sequential.congruence
  throw _ _ _ := rfl
  tryCatch hm hhandle := Silent.tryCatch hm fun e => hhandle (.refl e)
  typeOf _ := Render.silent_typeOf _
  ownTypeOf _ := Render.silent_ownTypeOf _
  setType _ _ _ _ := rfl
  cast _ _ _ _ _ := rfl
  touch := Render.silent_touch
  log _ _ _ _ := rfl
  visit _ := hr b _
  plain _ := hr false _
  query? _ _ _ _ := by
    unfold query?
    rw [hhelpers]
    exact fun _ _ => rfl

theorem silent_visit_of_none {target : Target} (hhelpers : target.helpers = none)
    (source : Source) (n : Nat) (b : Bool) (t : Tree) :
    Silent ((within target source n).visit b t) := by
  induction n generalizing b t with
  | zero => exact fun _ _ => rfl
  | succ n ih =>
    have hrelated := silent_related (r := within target source n)
      ((congrArg Target.helpers (target_within n)).trans hhelpers) ih
    rw [visit_within_succ]
    split
    · exact ih b t
    · exact (hrelated b).step ⟨rfl, trivial⟩

theorem silent_visit (target : Target) (source : Source) (n : Nat) (t : Tree) :
    Silent ((within target source n).visit false t) := by
  rw [visit_withoutHelpers]
  exact silent_visit_of_none rfl source n false t

theorem silent_related_within (target : Target) (source : Source) (n : Nat) :
    (within target source n).plainly.Related (within target source n).plainly false
      (fun t t' => t = t' ∧ True) fun _ m _ => Silent m :=
  silent_related rfl (fun _ => silent_visit target source n) false

theorem silent_cast? (target : Target) (source : Source) (n : Nat) (slot : Slot) (t : Tree) :
    Silent ((within target source n).cast? false slot t) := by
  rw [← cast?_plainly]
  exact (silent_related_within target source n).cast? ⟨rfl, trivial⟩ slot

theorem silent_numericValue (target : Target) (source : Source) (n : Nat) (t : Tree) :
    Silent ((within target source n).numericValue t) := by
  rw [← numericValue_plainly]
  exact (silent_related_within target source n).numericValue ⟨rfl, trivial⟩

end Renderer

end QueryScribe
