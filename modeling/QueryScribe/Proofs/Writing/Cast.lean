import QueryScribe.Proofs.Writing.Basic

/-!
# Numbers written as other types

A number is written as another type from its literal up: the literal is read anew and converted, and
then all nodes that were passed on the way down are noted as written anew (`ends_castSigned`, by
induction on the view of the node). The value of a number is found in the same way, without notes
(`ends_signedValue`). Where a value is missing this is said by the static counterparts of both,
`Tree.CastsTo` and `Tree.number?`.
-/

namespace QueryScribe

open Render (Ends)

namespace Tree

variable {c s t root : Tree}

theorem Spine.mem_nodes (h : Spine t s) (ht : t.isNode) : s ∈ t.nodes := by
  induction h with
  | refl => exact self_mem_nodes ht
  | @step t c s hc _ ih =>
    unfold operands at hc
    split at hc
    · exact mem_nodes_of_mem_children (mem_children_of_mem_subtrees hc)
        (ih (List.mem_filter.1 hc).2)
    · cases hc

theorem Formed.operand_of_sign {id i : Nat} {span : Span} {sign : Token} (hroot : root.Formed)
    (ht : node id .factor span [.leaf i sign, c] ∈ root.nodes) :
    c.isVisited ∧ c ∈ (node id .factor span [.leaf i sign, c]).operands := by
  have hvisited : c.isVisited := by
    cases hroot.form_of_isVisited ht rfl with
    | refused h => cases h
    | sign _ hc => exact hc
    | qualified h => rcases h with h | h <;> cases h
    | logical h => cases h
    | operation h => cases h
    | items h => rcases h with h | h <;> cases h
  refine ⟨hvisited, ?_⟩
  have hof : (node id .factor span [.leaf i sign, c]).isOf .factor := rfl
  rw [operands, hof, Bool.or_true, Bool.true_or, if_pos rfl]
  exact List.mem_filter.2 ⟨by simp [children], isNode_of_isVisited hvisited⟩

theorem number?_of_literal {token : Token} (hnumber : t.rule?.any Rule.isNumber)
    (htoken : t.firstToken? = some token) :
    t.number? = (Literal.number token.text t.natural).toOption := by
  cases t with
  | leaf id token => cases hnumber
  | node id rule span children =>
    have hrule : rule.isNumber := hnumber
    have hview : Signed.ofTree (node id rule span children) =
        .literal [node id rule span children] (node id rule span children) token.text := by
      unfold Signed.ofTree Signed.under
      simp only [hrule, if_true, htoken, List.nil_append]
    rw [number?, hview, Signed.value?]

/-- A literal whose value has no integer part. -/
def Overflows (t : Tree) : Prop :=
  t.IsLarge ∧ t.rule?.any Rule.isNumber ∧ ∃ token value, t.firstToken? = some token ∧
    Literal.number token.text t.natural = .ok value ∧ value.toInt = .error .overflow

end Tree

theorem Position.after {target : Target} {root t : Tree} {n m : Marks} {I : Marks → Prop}
    {type : ValueType} (h : Position target root n type t) (hafter : Marks.After I n m) :
    Position target root m type t :=
  ⟨fun s hs hcontainer hlisting ht => (h.parts s hs hcontainer hlisting ht).after hafter, h.slots⟩

namespace Signed.Views

variable {target : Target} {root t : Tree} {view : Signed} {type : ValueType}

theorem operand_spine {operand : Tree} {passed : List Tree} {id i : Nat} {span : Span} {sign : Token}
    (hpasses : t.Passes passed (.node id .factor span [.leaf i sign, operand]))
    (hroot : root.Formed) (ht : Tree.Written root t) :
    t.Spine operand ∧ operand.natural = t.natural := by
  obtain ⟨hspine, -⟩ := hpasses.spine
  obtain ⟨hvisited, hmem⟩ := hroot.operand_of_sign (ht _ hspine).1
  refine ⟨hspine.trans (.step hmem (.refl operand)), ?_⟩
  rw [← (hpasses.natural_eq hroot ht).1, Tree.natural_sign (Tree.isNode_of_isVisited hvisited)]

theorem castsTo_of_converts (h : Views t view) (hroot : root.Formed) (ht : Tree.Written root t)
    (htype : type = .integer ∨ type = .decimal)
    (hconverts : ∀ s, t.Spine s → s.rule?.any Rule.isNumber → s.Converts target) :
    view.CastsTo target type t := by
  induction h with
  | literal hpasses hnumber htoken =>
    obtain ⟨value, hvalue, -, hcanonical⟩ := hconverts _ hpasses.spine.1 hnumber _ htoken
    obtain ⟨written, hwritten, hok⟩ := hcanonical type htype
    rw [(hpasses.natural_eq hroot ht).1] at hvalue
    exact ⟨value, written, hvalue, hwritten, hok⟩
  | signed hpasses _ ih =>
    obtain ⟨hspine, -⟩ := operand_spine hpasses hroot ht
    exact ih (ht.of_spine hspine) fun s hs => hconverts s (hspine.trans hs)
  | other => trivial

/-- A number that has no integer part has a literal that has none. -/
theorem overflows_of_toInt (h : Views t view) (hroot : root.Formed) (ht : Tree.Written root t)
    {value : Number} (hvalue : view.value? = some value) {fault : ConversionFault}
    (hfault : value.toInt = .error fault) : fault = .overflow ∧ ∃ s, t.Spine s ∧ s.Overflows := by
  induction h generalizing value with
  | @literal t core passed token hpasses hnumber htoken =>
    have hnumber' : Literal.number token.text core.natural = .ok value := by
      cases heq : Literal.number token.text core.natural with
      | ok v => rw [value?, heq] at hvalue; cases hvalue; rfl
      | error cause => rw [value?, heq] at hvalue; cases hvalue
    obtain ⟨rfl, hlarge⟩ := hroot.isLarge_of_toInt (ht core hpasses.spine.1).1 hnumber htoken
      hnumber' hfault
    exact ⟨rfl, core, hpasses.spine.1, hlarge, hnumber, token, value, htoken, hnumber', hfault⟩
  | @signed t operand passed id i span sign view hpasses _ ih =>
    obtain ⟨hspine, -⟩ := operand_spine hpasses hroot ht
    have hbelow : ∀ {v : Number}, view.value? = some v → v.toInt = .error fault →
        fault = .overflow ∧ ∃ s, t.Spine s ∧ s.Overflows := by
      intro v hv hfault
      obtain ⟨rfl, s, hs, hoverflows⟩ := ih (ht.of_spine hspine) hv hfault
      exact ⟨rfl, s, hspine.trans hs, hoverflows⟩
    obtain ⟨v, hv, hvalue⟩ := Option.bind_eq_some_iff.1 hvalue
    split at hvalue
    · cases hvalue
      rw [Number.toInt_neg] at hfault
      refine hbelow hv ?_
      cases hint : v.toInt with
      | ok n => rw [hint] at hfault; cases hfault
      | error e => rw [hint] at hfault; cases hfault; rfl
    · split at hvalue
      · obtain ⟨n, -, rfl⟩ := Option.map_eq_some_iff.1 hvalue
        cases hfault
      · cases hvalue
        exact hbelow hv hfault
  | other => cases hvalue

end Signed.Views

namespace Renderer

variable {r : Renderer} {root t : Tree} {b : Bool} {E : Fault → Prop} {j : Journal}
  {type : ValueType} {view : Signed} {passed : List Tree} {target : Target}

/-! ## Values -/

variable {P : Prop} {core : Tree}

theorem ends_stringValue {I : Marks → Prop} (hE : Allows r.setting root E P)
    (hP : P → (t.stringValue? r.setting.names).isSome) (hj : I j.notes.mark) :
    Ends I E (r.stringValue t) j fun value _ => t.stringValue? r.setting.names = some value := by
  have hnone : t.stringValue? r.setting.names = none → ¬ P := fun h hP' => by
    rw [h] at hP
    cases hP hP'
  unfold stringValue
  dsimp only
  split
  · rename_i hstring
    split
    · rename_i value hvalue
      exact .pure hj (by rw [Tree.stringValue?, if_pos hstring, setting, hvalue]; rfl)
    · rename_i hvalue
      exact hE.fail hj (by rintro ⟨⟩)
        (hnone (by rw [Tree.stringValue?, if_pos hstring, setting, hvalue]; rfl))
  · rename_i hstring
    exact hE.fail hj (by rintro ⟨⟩) (hnone (by rw [Tree.stringValue?, if_neg hstring]))

/-- The value of a number, or a fault if there is none. -/
theorem ends_signedValue (hroot : root.Formed) (hviews : Signed.Views t view)
    (ht : Tree.Written root t) (hj : Coherent target root j.notes.mark)
    (htyped : ∀ s, t.Spine s → Marks.Typed j.notes.mark s)
    (hfailure : ∀ cause : Cause, cause.kind = .evaluation → view.value? = none →
      E (.failure ⟨cause, none⟩))
    (hoverflow : view.value? = none → (∃ s, t.Spine s ∧ s.Overflows) → E (.conversion .overflow)) :
    Ends (Coherent target root) E (r.signedValue t view) j fun value _ =>
      view.value? = some value := by
  induction hviews generalizing j with
  | @literal t core passed token hpasses hnumber htoken =>
    refine .bind (.ownNatural hj (ht core hpasses.spine.1).1 (htyped core hpasses.spine.1))
      fun own k hk hown => ?_
    subst hown
    refine .ofCause hk.keeps (fun cause hcause => hfailure cause (Literal.kind_of_number hcause) ?_)
      fun value hvalue => ?_
    · rw [Signed.value?, hcause]
      rfl
    · rw [Signed.value?, hvalue]
      rfl
  | @signed t operand passed id i span sign view hpasses hviews ih =>
    obtain ⟨hspine, -⟩ := Signed.Views.operand_spine hpasses hroot ht
    have hnone : view.value? = none → (Signed.signed passed sign.text operand view).value? = none :=
      fun h => by rw [Signed.value?, h]; rfl
    refine .bind (ih (ht.of_spine hspine) hj (fun s hs => htyped s (hspine.trans hs))
      (fun cause hcause h => hfailure cause hcause (hnone h))
      fun h ⟨s, hs, hoverflows⟩ => hoverflow (hnone h) ⟨s, hspine.trans hs, hoverflows⟩)
      fun value k hk hvalue => ?_
    split
    · rename_i hminus
      exact .pure hk.keeps (by rw [Signed.value?, hvalue, Option.bind_some, if_pos hminus])
    · rename_i hminus
      split
      · rename_i htilde
        have hsigned : (Signed.signed passed sign.text operand view).value? =
            value.toInt.toOption.map fun n => .int (-n - 1) := by
          rw [Signed.value?, hvalue, Option.bind_some, if_neg hminus, if_pos htilde]
        refine .bind (.ofConversion (Q := fun n _ => value.toInt = .ok n) hk.keeps
          (fun fault hfault => ?_) fun n hn => hn) fun n k' hk' hn => ?_
        · obtain ⟨rfl, s, hs, hoverflows⟩ :=
            hviews.overflows_of_toInt hroot (ht.of_spine hspine) hvalue hfault
          exact hoverflow (by rw [hsigned, hfault]; rfl) ⟨s, hspine.trans hs, hoverflows⟩
        · exact .pure hk'.keeps (by rw [hsigned, hn]; rfl)
      · rename_i htilde
        exact .pure hk.keeps
          (by rw [Signed.value?, hvalue, Option.bind_some, if_neg hminus, if_neg htilde])
  | other => exact .throw hj (hfailure _ rfl rfl)

theorem ends_numericValue (hroot : root.Formed) (hwrote : Wrote r.setting root b t j.notes.mark)
    (hE : Allows r.setting root E P) (hP : P → t.number?.isSome)
    (hj : Coherent r.target root j.notes.mark) :
    Ends (Coherent r.target root) E (r.numericValue t) j fun value _ => t.number? = some value := by
  have hnone : t.number? = none → ¬ P := fun h hP' => by
    rw [h] at hP
    cases hP hP'
  refine ends_signedValue hroot (Signed.views_ofTree t) hwrote.written hj hwrote.typed
    (fun cause hcause h => hE.failure ?_ (hnone h)) fun h ⟨s, hs, hlarge, _⟩ => ?_
  · rw [Failure.kind, hcause]
    decide
  · exact hE _ (.large (hwrote.written s hs).1 hlarge) (hnone h)

theorem ends_integerValue (hroot : root.Formed) (hwrote : Wrote r.setting root b t j.notes.mark)
    (hE : Allows r.setting root E P) (hP : P → t.integer?.isSome)
    (hj : Coherent r.target root j.notes.mark) :
    Ends (Coherent r.target root) E (do Render.ofConversion (← r.numericValue t).toInt) j
      fun n _ => t.integer? = some n := by
  refine .bind (ends_numericValue hroot hwrote hE (fun h => ?_) hj) fun value k hk hvalue => ?_
  · obtain ⟨n, hn⟩ := Option.isSome_iff_exists.1 (hP h)
    obtain ⟨value, hvalue, -⟩ := Option.bind_eq_some_iff.1 hn
    rw [hvalue]
    rfl
  · refine .ofConversion hk.keeps (fun fault hfault => ?_) fun n hn => ?_
    · obtain ⟨rfl, s, hs, hlarge, -⟩ :=
        (Signed.views_ofTree t).overflows_of_toInt hroot hwrote.written hvalue hfault
      refine hE _ (.large (hwrote.written s hs).1 hlarge) fun h => ?_
      have hinteger := hP h
      rw [Tree.integer?, hvalue, Option.bind_some, hfault] at hinteger
      cases hinteger
    · rw [Tree.integer?, hvalue, Option.bind_some, hn]
      rfl

/-! ## Casts -/

/-- Nodes that have one natural type are noted as written anew one after the other. -/
theorem ends_castAll {own : ValueType} (hroot : root.Formed)
    (hj : Coherent target root j.notes.mark) (hown : own.isNumeric) (htype : type.isNumeric)
    (hpassed : ∀ p ∈ passed, p ∈ root.nodes ∧ p.natural = own ∧ Marks.Typed j.notes.mark p ∧
      Position target root j.notes.mark type p) :
    Ends (Coherent target root) E (castAll passed type own) j fun _ _ => True := by
  induction passed generalizing j with
  | nil => exact .pure hj trivial
  | cons p passed ih =>
    obtain ⟨hmem, rfl, htyped, hposition⟩ := hpassed p (.head _)
    have hmark : ∀ n : Notes, (n.cast p type p.natural).mark = fun i =>
        if i = p.id then (n.mark i).cast type p.natural else n.mark i :=
      fun n => funext fun i => Notes.mark_cast _ _ _ _ _
    have hafter : Marks.After (Coherent target root) j.notes.mark
        (j.notes.cast p type p.natural).mark := by
      rw [hmark]
      refine ⟨hj.cast hroot hmem hown htype htyped hposition, fun i => ?_⟩
      split
      · exact Mark.kept_cast _ _ _
      · exact .refl _
    rw [castAll_cons]
    refine .bind (.note (Q := fun _ _ => True) hafter trivial fun k hk => ?_) fun _ k hk _ => ?_
    · rw [hmark, hmark]
      exact hk.cast p type p.natural
    refine ih hk.keeps fun q hq => ?_
    obtain ⟨hmem, hnatural, htyped, hposition⟩ := hpassed q (List.mem_cons_of_mem p hq)
    exact ⟨hmem, hnatural, htyped.after hk, hposition.after hk⟩

/-- All nodes that a node passes may be written as a type if the node itself may. -/
theorem positions_of_passes {n : Marks} (hpasses : t.Passes passed core) (hroot : root.Formed)
    (ht : Tree.Written root t) (htyped : ∀ s, t.Spine s → n.Typed s)
    (hposition : Position target root n type t) :
    ∀ p ∈ passed, p ∈ root.nodes ∧ p.natural = t.natural ∧ n.Typed p ∧
      Position target root n type p := by
  intro p hp
  have hspine := hpasses.spine.2
  refine ⟨(ht p (hspine p hp)).1, (hpasses.natural_eq hroot ht).2 p hp, htyped p (hspine p hp), ?_⟩
  rcases hpasses.eq_or_mem_operands p hp with rfl | ⟨q, hq, hpass, hpq⟩
  · exact hposition
  · obtain ⟨hmem, hvisited, hrefused⟩ := ht q (hspine q hq)
    exact .of_mem_operands hroot hmem hvisited hrefused (.inl hpass) hpq (htyped q (hspine q hq)) type

theorem ends_castPassed {written : String} {k : Journal} (hpasses : t.Passes passed core)
    (hroot : root.Formed) (hnatural : t.natural.isNumeric) (htype : type.isNumeric)
    (ht : Tree.Written root t) (htyped : ∀ s, t.Spine s → Marks.Typed j.notes.mark s)
    (hposition : P → Position r.target root j.notes.mark type t)
    (hk : Marks.After (Coherent r.target root) j.notes.mark k.notes.mark) (hP : P) :
    Ends (Coherent r.target root) E (do castAll passed type t.natural; return written) k
      fun _ _ => P := by
  refine .bind (ends_castAll hroot hk.keeps hnatural htype (positions_of_passes hpasses hroot ht
    (fun s hs => (htyped s hs).after hk) ((hposition hP).after hk))) fun _ k' hk' _ => ?_
  exact .pure hk'.keeps hP

/-- The text of a literal of another type, if it can be written as this type. -/
theorem ends_castLiteral {token : Token} {k : Journal} (hpasses : t.Passes passed core)
    (hroot : root.Formed) (ht : Tree.Written root t) (hnumber : core.rule?.any Rule.isNumber)
    (htoken : core.firstToken? = some token) (hoctal : type ≠ .octal)
    (hE : Allows r.setting root E ((Signed.literal passed core token.text).CastsTo r.target type t))
    (hk : Coherent r.target root k.notes.mark) :
    Ends (Coherent r.target root) E (do
      let value ← Render.ofCause (Literal.number token.text t.natural)
      Render.use type
      let text ← Render.ofConversion (Literal.canonical value type)
      r.literal type text) k fun _ _ =>
        (Signed.literal passed core token.text).CastsTo r.target type t := by
  refine .bind (hE.ofCause (fun ⟨value, _, hvalue, _⟩ => by rw [hvalue]; rfl) hk
    fun cause => Literal.kind_of_number) fun value k₁ hk₁ hvalue => ?_
  refine .useThen hk₁.keeps fun k₂ hk₂ => ?_
  -- The value is known from here on, so what is left is to convert it and to write it.
  have hcasts : (Signed.literal passed core token.text).CastsTo r.target type t ↔
      ∃ text, Literal.canonical value type = .ok text ∧ (r.target.writeLiteral type text).isOk := by
    constructor
    · rintro ⟨value', text, hvalue', htext, hok⟩
      rw [hvalue] at hvalue'
      cases hvalue'
      exact ⟨text, htext, hok⟩
    · rintro ⟨text, htext, hok⟩
      exact ⟨value, text, hvalue, htext, hok⟩
  rw [hcasts] at hE ⊢
  refine .bind (.ofConversion (Q := fun text _ => Literal.canonical value type = .ok text) hk₂.keeps
    (fun fault hfault => ?_) fun text htext => htext) fun text k₃ hk₃ htext => ?_
  · obtain ⟨hmem, -⟩ := ht core hpasses.spine.1
    rw [← (hpasses.natural_eq hroot ht).1] at hvalue
    refine hE _ ?_ fun ⟨text, htext, _⟩ => by rw [hfault] at htext; cases htext
    rcases hroot.isLarge_of_canonical hmem hnumber htoken hvalue hfault with
      ⟨rfl, hlarge⟩ | ⟨rfl, hlong⟩
    · exact .large hmem hlarge
    · exact .long hmem (.inl ⟨value, by rw [Tree.number?_of_literal hnumber htoken, hvalue]; rfl, hlong⟩)
  · refine (hE.literal (fun h => absurd h hoctal) (fun ⟨text', htext', hok⟩ => ?_) hk₃.keeps).imp
      fun _ _ _ hok => ⟨text, htext, hok⟩
    rw [htext] at htext'
    cases htext'
    exact hok

/-- Writing a number as another type, from its literal up. -/
theorem ends_castSigned (hroot : root.Formed) (hviews : Signed.Views t view)
    (hnatural : t.natural.isNumeric) (htype : type.isNumeric) (hoctal : type ≠ .octal)
    (ht : Tree.Written root t) (hvisits : ∀ s, t.Spine s → r.Visits root b s)
    (hE : Allows r.setting root E (Ready r.setting b t ∧ view.CastsTo r.target type t))
    (hj : Coherent r.target root j.notes.mark)
    (htyped : ∀ s, t.Spine s → Marks.Typed j.notes.mark s)
    (hposition : view.CastsTo r.target type t → Position r.target root j.notes.mark type t) :
    Ends (Coherent r.target root) E (r.castSigned b type t view) j fun _ _ =>
      view.CastsTo r.target type t := by
  induction hviews generalizing j with
  | @literal t core passed token hpasses hnumber htoken =>
    refine .bind (.ownNatural hj (ht t (.refl t)).1 (htyped t (.refl t))) fun own k hk hown => ?_
    subst hown
    have hwritten := (ends_castLiteral hpasses hroot ht hnumber htoken hoctal
      (hE.mono fun hready => hready.2) hk.keeps).bind
        (f := fun written => do castAll passed type t.natural; return written)
        fun written k' hk' hcasts =>
          ends_castPassed hpasses hroot hnatural htype ht htyped hposition (hk.trans hk') hcasts
    simpa only [bind_assoc] using hwritten
  | @signed t operand passed number i span sign view hpasses hviews ih =>
    obtain ⟨hspine, hoperand⟩ := Signed.Views.operand_spine hpasses hroot ht
    obtain ⟨hmem, hvisited, hrefused⟩ := ht _ hpasses.spine.1
    refine .bind (.ownNatural hj (ht t (.refl t)).1 (htyped t (.refl t))) fun own k hk hown => ?_
    subst hown
    refine .bind (ih (hoperand ▸ hnatural) (ht.of_spine hspine)
      (fun s hs => hvisits s (hspine.trans hs))
      (hE.mono fun ⟨hready, hcasts⟩ => ⟨hready.of_mem_nodes ?_ ?_ id, hcasts⟩) hk.keeps
      (fun s hs => (htyped s (hspine.trans hs)).after hk) fun _ => ?_) fun written k' hk' hcasts => ?_
    · exact hspine.mem_nodes (Tree.isNode_of_isVisited (ht t (.refl t)).2.1)
    · exact Tree.isContainer_of_isVisited (ht operand hspine).2.1
    · exact .of_mem_operands hroot hmem hvisited hrefused (.inr rfl) (hroot.operand_of_sign hmem).2
        ((htyped _ hpasses.spine.1).after hk) type
    · exact ends_castPassed hpasses hroot hnatural htype ht htyped hposition (hk.trans hk') hcasts
  | @other t core passed hpasses =>
    refine .bind (.ownNatural hj (ht t (.refl t)).1 (htyped t (.refl t))) fun own k hk hown => ?_
    subst hown
    refine .bind (hvisits t (.refl t) E k (hE.mono fun hready => hready.1) hk.keeps)
      fun written k' hk' _ => ?_
    exact ends_castPassed hpasses hroot hnatural htype ht htyped hposition (hk.trans hk') trivial

theorem ends_castTo (hroot : root.Formed) (hnatural : t.natural.isNumeric) (htype : type.isNumeric)
    (hoctal : type ≠ .octal) (hwrote : Wrote r.setting root b t j.notes.mark) (hvisits : ∀ s, t.Spine s → r.Visits root b s)
    (hE : Allows r.setting root E (Ready r.setting b t ∧ t.CastsTo r.target type))
    (hj : Coherent r.target root j.notes.mark)
    (hposition : t.CastsTo r.target type → Position r.target root j.notes.mark type t) :
    Ends (Coherent r.target root) E (r.castTo b type t) j fun _ _ => t.CastsTo r.target type :=
  ends_castSigned hroot (Signed.views_ofTree t) hnatural htype hoctal hwrote.written hvisits hE
    hj hwrote.typed hposition

end Renderer

/-! ## Slots -/

namespace Slot

variable {slot : Slot} {type : ValueType}

theorem admits_of_numeric? (h : slot.numeric? = some type) : slot.admits type := by
  rw [admits, (of_numeric? h).2]
  rfl

end Slot

namespace Renderer

variable {r : Renderer} {root t : Tree} {b : Bool} {E : Fault → Prop} {j : Journal} {slot : Slot}

/-- What is known after an argument was written for a slot: the type that it had, and that the slot
admits it or the argument was written as the type that the slot asks for. -/
def Accepted (target : Target) (slot : Slot) (t : Tree) (C : ValueType → Prop) (text? : Option String) :
    Prop :=
  ∃ type : ValueType, type.Kin t.natural ∧ (type = t.natural ∨ C type) ∧ match text? with
    | some text => Spelled target t text ∧ (slot.admits type ∨
        type.isNumeric ∧ ∃ expected, slot.numeric? = some expected ∧ t.CastsTo target expected)
    | none => slot.admits type = false ∧ (type.isNumeric → slot.numeric? = none)

/-- Writing an argument for a slot. The types that it may have been written as before are those of
`C`. -/
theorem ends_cast? {C : ValueType → Prop} {P : Prop} (hroot : root.Formed) (ht : t ∈ root.nodes)
    (hvisited : t.isVisited) (hvisits : ∀ s ∈ t.nodes, s.isVisited → r.Visits root b s)
    (hoctal : slot.numeric? ≠ some .octal) (hE : Allows r.setting root E P)
    (hready : P → Ready r.setting b t) (hcasts : P → ∀ type expected, type = t.natural ∨ C type → slot.admits type = false →
      type.isNumeric → slot.numeric? = some expected → t.CastsTo r.target expected)
    (hj : Coherent r.target root j.notes.mark)
    (hC : ∀ n type, Coherent r.target root n → (n t.id).own.isSome → (n t.id).type = some type → C type)
    (hposition : ∀ expected, slot.numeric? = some expected → t.CastsTo r.target expected →
      Position r.target root j.notes.mark expected t) :
    Ends (Coherent r.target root) E (r.cast? b slot t) j fun text? n =>
      Wrote r.setting root b t n ∧ Accepted r.target slot t C text? := by
  refine .bind (hvisits t (Tree.self_mem_nodes (Tree.isNode_of_isVisited hvisited)) hvisited E j
    (hE.mono hready) hj) fun text k hk ⟨hwrote, hspelled⟩ => ?_
  refine .bind (.typeOf (Q := fun type _ => type.Kin t.natural ∧ (type = t.natural ∨ C type)) hk.keeps
    (hwrote.typed t (.refl t)) fun type htype => ?_) fun type k₁ hk₁ ⟨hkin, htype⟩ => ?_
  · have hfits := hk.keeps.fits t ht
    refine ⟨hfits.kin htype, ?_⟩
    cases hown : (k.notes.mark t.id).own with
    | none => exact .inl (hfits.eq_natural hown htype)
    | some own => exact .inr (hC _ type hk.keeps (by rw [hown]; rfl) htype)
  have hwrote := hwrote.after hk₁
  split
  · rename_i hadmits
    exact .pure hk₁.keeps ⟨hwrote, type, hkin, htype, hspelled, .inl hadmits⟩
  · rename_i hadmits
    have hadmits : slot.admits type = false := Bool.eq_false_iff.2 hadmits
    split
    · rename_i hnumeric
      have hnatural : t.natural.isNumeric := hkin.elim (fun h => h ▸ hnumeric) fun h => h.2
      split
      · rename_i name hname
        obtain ⟨expected, hexpected, hnamed⟩ := Render.typeNamed_of_numericName? hname
        rw [hnamed, pure_bind]
        have hstring : t.natural ≠ .string := fun h => by rw [h] at hnatural; cases hnatural
        refine .bind (ends_castTo hroot hnatural (Slot.of_numeric? hexpected).1
          (fun h => hoctal (h ▸ hexpected)) hwrote (fun s hs => ?_)
          (hE.mono fun hP => ⟨hready hP, hcasts hP type expected htype hadmits hnumeric hexpected⟩)
          hk₁.keeps fun hcasts => (hposition expected hexpected hcasts).after (hk.trans hk₁))
          fun written k₂ hk₂ hcasts => ?_
        · exact hvisits s (hs.mem_nodes (Tree.isNode_of_isVisited hvisited)) (hwrote.written s hs).2.1
        · exact .pure hk₂.keeps ⟨hwrote.after hk₂, type, hkin, htype, fun _ h => absurd h hstring,
            .inr ⟨hnumeric, expected, hexpected, hcasts⟩⟩
      · rename_i hnone
        have hnone : slot.numeric? = none := by rw [Slot.numeric?, hnone]; rfl
        exact .pure hk₁.keeps ⟨hwrote, type, hkin, htype, hadmits, fun _ => hnone⟩
    · rename_i hnumeric
      exact .pure hk₁.keeps ⟨hwrote, type, hkin, htype, hadmits, fun h => absurd h hnumeric⟩

end Renderer

end QueryScribe
