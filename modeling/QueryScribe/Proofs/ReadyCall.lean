import QueryScribe.Proofs.Wrapping

/-!
# Calls whose parts are ready

A call may fail although all its parts can be written. Where what is called and the arguments are ready,
and the arguments fit, nothing goes wrong before the call looks at their values: `compile_of_call`
and `ends_prepared_of_ready` leave only the rest of its treatment to look at. Which faults there may be is
then up to the rest alone.

Only documents are written in more than one way. An expression without any is ready in every style as
soon as it can be written (`Tree.Settled`), and this follows the shape of the expression.
-/

namespace QueryScribe

open List

open Render (Ends exec)

variable {target : Target} {setting : Setting} {root : Tree}

theorem Allows.of_holds {P : Prop} (h : P) (E : Fault → Prop) :
    Allows setting root E P :=
  fun _ _ hno => absurd h hno

theorem Renderer.stands_below {t : Tree} (hroot : root.Formed) (ht : t ∈ root.nodes) (target : Target)
    (input : Source) (b : Bool) : (below target input t).Stands root b t where
  formed := hroot
  mem := ht
  below _ hs hlt hvisited b' _ := visits_within hroot target input (Tree.mem_nodes_trans ht hs) hvisited
    (Nat.le_sub_one_of_lt hlt) b'

/-! ## Expressions without documents -/

/-- A node that can be written, with no document in it. -/
structure Tree.Settled (setting : Setting) (t : Tree) : Prop where
  writable : Tree.Writable setting t False t
  documents : ∀ s ∈ t.nodes, s.isOf .objectLiteral = false

namespace Tree

variable {setting : Setting} {t root : Tree} {id i : Nat} {rule : Rule} {span sp : Span} {cs : List Tree}

namespace Settled

theorem ready (h : t.Settled setting) (hmarked : setting.target.Marked) (b : Bool) :
    Ready setting b t where
  marked := hmarked
  writable := h.writable
  converts _ d hd hof := by
    rw [h.documents d hd] at hof
    cases hof

theorem of_children (hrule : rule ≠ .objectLiteral) (hadmitted : (node id rule span cs).Admitted setting)
    (hvisited : ∀ c ∈ cs, c.isNode → c.isVisited) (hcs : ∀ c ∈ cs, c.isNode → c.Settled setting) :
    (node id rule span cs).Settled setting := by
  constructor
  · refine .intro (fun _ => hadmitted) fun c hc _ => ?_
    rw [parts_of_isVisited hvisited, mem_filter] at hc
    exact (hcs c hc.1 hc.2).writable.of_false
  · intro s hs
    rcases mem_nodes_node.1 hs with rfl | ⟨c, hc, hs⟩
    · exact beq_eq_false_iff_ne.2 fun h => hrule (Option.some.inj h)
    · cases c with
      | leaf => cases hs
      | node => exact (hcs _ hc rfl).documents s hs

theorem parenthesis (h : t.Settled setting) (hroot : root.Formed)
    (ht : node id .setLiteral span [node i .testListComp sp [t]] ∈ root.nodes) (hnode : t.isNode) :
    (node id .setLiteral span [node i .testListComp sp [t]]).Settled setting := by
  have hlist : node i .testListComp sp [t] ∈ root.nodes :=
    mem_nodes_trans ht (mem_nodes_of_mem_children (.head _) (self_mem_nodes rfl))
  obtain ⟨-, hparts⟩ := hroot.parts_of_items hlist (.inr rfl)
  have hsubtrees : (node i .testListComp sp [t]).subtrees = [t] :=
    filter_eq_self.2 (forall_mem_singleton.2 hnode)
  constructor
  · refine .intro (fun _ => ⟨rfl, fun hno => absurd rfl hno⟩) fun c hc _ => ?_
    rw [mem_parts_of_listing rfl, hparts, hsubtrees, mem_singleton] at hc
    rw [hc]
    exact h.writable.of_false
  · intro s hs
    rcases mem_nodes_node.1 hs with rfl | ⟨c, hc, hs⟩
    · rfl
    · rw [mem_singleton.1 hc] at hs
      rcases mem_nodes_node.1 hs with rfl | ⟨c, hc, hs⟩
      · rfl
      · exact h.documents s (mem_singleton.1 hc ▸ hs)

theorem wrapper {c : Tree} (h : c.Settled setting) (hroot : root.Formed)
    (ht : node id rule span [c] ∈ root.nodes) (hnode : c.isNode) (hrule : rule.isWrapper) :
    (node id rule span [c]).Settled setting := by
  have hwraps : rule.wraps := Rule.wraps_iff.2 (.inl hrule)
  have hvisited := hroot.isVisited_of_wraps ht hnode hwraps
  refine of_children (fun hno => ?_) (admitted_of_isWrapper (.inl hrule))
    (forall_mem_singleton.2 fun _ => hvisited) (forall_mem_singleton.2 fun _ => h)
  rw [hno] at hrule
  cases hrule

theorem of_wrapped (h : t.wrapped.Settled setting) (hroot : root.Formed) (ht : t ∈ root.nodes) :
    t.Settled setting where
  writable := h.writable.of_false.of_wrapped hroot ht
  documents s hs := by
    by_contra hof
    have hdocument : s.isOf .objectLiteral := Bool.eq_true_of_not_eq_false hof
    refine hof (h.documents s (mem_wrapped_nodes hs ?_))
    rw [beq_iff_eq.1 hdocument]
    rfl

end Settled

theorem natural_parenthesis (hnode : t.isNode) :
    (node id .setLiteral span [node i .testListComp sp [t]]).natural = t.natural := by
  have hlisted : (node i .testListComp sp [t]).natural = t.natural := by
    rw [natural_node, filter_cons_of_pos hnode]
    rfl
  rw [natural_node, filter_cons_of_pos rfl]
  exact hlisted

theorem mem_nodes_of_parenthesis (hnode : t.isNode) :
    t ∈ (node id .setLiteral span [node i .testListComp sp [t]]).nodes :=
  mem_nodes_of_mem_children (.head _)
    (mem_nodes_of_mem_children (.head _) (self_mem_nodes hnode))

end Tree

/-! ## Calls -/

theorem render_of_call {call : Tree} (hof : call.isOf .functionCall) (input : Source) (b : Bool) :
    render target input b call = (Renderer.below target input call).call b call := by
  rw [Renderer.render_eq_step]
  obtain ⟨id, span, cs, rfl⟩ := Tree.exists_of_isOf hof
  rfl

/-- A node that is a name, below the nodes that only wrap it. -/
def Tree.isNamed (name : String) (t : Tree) : Bool :=
  match t.wrapped with
  | node _ .identifier _ [leaf _ token] => token.text == name
  | _ => false

theorem Tree.settled_of_isNamed (setting : Setting) {t : Tree} {name : String} {type : ValueType}
    (htype : ValueType.ofSymbol? name = some type) (hroot : root.Formed) (ht : t ∈ root.nodes)
    (h : t.isNamed name) : t.Settled setting ∧ t.natural = type := by
  unfold isNamed at h
  split at h
  · rename_i id span i token hwrapped
    have htext := beq_iff_eq.1 h
    have hsettled : t.wrapped.Settled setting := by
      rw [hwrapped]
      refine .of_children nofun ⟨rfl, ?_⟩ (forall_mem_singleton.2 nofun)
        (forall_mem_singleton.2 nofun)
      change (ValueType.ofSymbol? token.text).isSome
      rw [htext, htype]
      rfl
    refine ⟨hsettled.of_wrapped hroot ht, ?_⟩
    rw [← natural_wrapped, hwrapped, natural_node]
    change ((some token).bind fun token => ValueType.ofSymbol? token.text).getD .undefined = type
    rw [Option.bind_some, htext, htype]
    rfl
  · cases h

section Named

variable {input : Source} {b : Bool} {t : Tree} {name : String} {type : ValueType}

theorem exec_render_of_isNamed (hend : target.endOfStatement = "")
    (htype : ValueType.ofSymbol? name = some type) (h : t.isNamed name) (j : Journal) :
    (exec (render target input b t) j).1 = .ok ((target.symbol type).getD name) := by
  unfold Tree.isNamed at h
  split at h
  · rename_i id span i token hwrapped
    obtain rfl := beq_iff_eq.1 h
    have hexec : exec (render target input b t.wrapped) j = (.ok ((target.symbol type).getD token.text),
        { j with notes := (j.notes.setType t.wrapped type).touch type.code }) := by
      have htoken : (Tree.node id .identifier span [.leaf i token]).firstToken? = some token := rfl
      rw [hwrapped, Renderer.render_eq_step, Renderer.step, Renderer.ofRule, Renderer.identifier, htoken]
      dsimp only
      rw [htype, Renderer.below, Renderer.target_within]
      rfl
    have htyped : Marks.Typed ((j.notes.setType t.wrapped type).touch type.code).mark t.wrapped := by
      change Marks.Typed (j.notes.setType t.wrapped type).mark t.wrapped
      rw [Marks.Typed, Notes.mark_setType, if_pos rfl, Mark.withType]
      cases (j.notes.mark t.wrapped.id).type <;> rfl
    obtain ⟨l, hl, -, -⟩ := exec_render_of_wrapped hend hexec fun _ => htyped
    rw [hl]
  · cases h

/-- A node that is written on its own gets a type of its kind, and leaves coherent notes. -/
theorem Tree.Formed.exec_typeOf (hroot : root.Formed) (ht : t ∈ root.nodes) (hvisited : t.isVisited)
    {text : String} {k : Journal} (hexec : exec (render target input b t) {} = (.ok text, k)) :
    Coherent target root k.notes.mark ∧ ∃ type, type.Kin t.natural ∧ exec (Render.typeOf t) k = (.ok type, k) := by
  obtain ⟨hafter, hends, -⟩ := writes_render hroot ht hvisited target input b (E := fun _ => True) (j := {})
    (fun _ _ _ => trivial) (.blank target root)
  rw [hexec] at hafter hends
  obtain ⟨type, htype⟩ := Option.isSome_iff_exists.1 (hends.1.typed t (.refl t))
  refine ⟨hafter.keeps, type, (hafter.keeps.fits t ht).kin htype, ?_⟩
  rw [Render.exec_typeOf, Notes.type?_eq_of_mark htype]

end Named

theorem ValueType.Kin.eq_of_isNumeric {a b : ValueType} (h : a.Kin b) (hb : b.isNumeric = false) : a = b :=
  h.resolve_right fun hno => by rw [hb] at hno; cases hno.2

/-- A call goes on after what is called was written on its own, by the type that this has then. -/
theorem Tree.Formed.exec_call {call callee : Tree} (hroot : root.Formed) (hmem : call ∈ root.nodes)
    (hcall : call.isOf .functionCall) (hcallee : call.subtrees.head? = some callee) {input : Source}
    {b : Bool} {text : String} {k : Journal} (hexec : exec (render target input b callee) {} = (.ok text, k)) :
    Coherent target root k.notes.mark ∧ ∃ type, type.Kin call.calleeType ∧
      (type.treatment? = none → exec (render target input b call) {} =
        exec ((Renderer.below target input call).otherCall b ⟨type, text⟩ call) k) ∧
      ∀ treatment, type.treatment? = some treatment → exec (render target input b call) {} =
        exec ((Renderer.below target input call).treatedCall b ⟨type, text⟩ call treatment)
          { k with log := .call type treatment :: k.log } := by
  obtain ⟨callee', rest, hsubtrees, hpart, hvisited, hnatural, -⟩ := hroot.exists_callee hmem hcall
  rw [hsubtrees] at hcallee
  obtain rfl : callee' = callee := Option.some.inj hcallee
  obtain ⟨hcoherent, type, hkin, htype⟩ :=
    hroot.exec_typeOf (Tree.mem_nodes_trans hmem (Tree.mem_nodes_of_mem_parts hpart)) hvisited hexec
  have hvisit : (Renderer.below target input call).visit b callee' = render target input b callee' :=
    Renderer.visit_within b (Nat.le_sub_one_of_lt (Tree.height_lt_of_mem_parts hpart))
  refine ⟨hcoherent, type, hnatural ▸ hkin, fun hnone => ?_, fun treatment hsome => ?_⟩
  all_goals
    rw [render_of_call hcall, Renderer.call, hsubtrees]
    dsimp only
    rw [hvisit, Render.exec_bind, hexec]
    dsimp only
    rw [Render.exec_bind, htype]
    dsimp only
  · rw [hnone]
  · rw [hsome]
    rfl

section Compile

variable {options : Options} {source text : String} {call : Tree} {treatment : Treatment} {E : Fault → Prop}
  {Q : String → Prop}

/-- A program that is a call of what has a treatment compiles as the treatment ends. -/
theorem compile_of_call (htarget : target ∈ Target.all) (hparse : parse source = .ok root)
    (hlength : options.exceeded source.length = none) (hprogram : root.children.map Tree.wrapped = [call])
    (hcall : call.isOf .functionCall) (htreatment : call.calleeType.treatment? = some treatment)
    (htext : ∀ callee ∈ call.subtrees.head?, (exec (render target (options.source source) options.idiomatic callee)
      {}).1 = .ok text)
    (h : ∀ (r : Renderer) (k : Journal), r.setting = ⟨target, options.names⟩ →
      r.Stands root options.idiomatic call →
      Coherent r.target root k.notes.mark → Ends (Coherent r.target root) E
        (r.treatedCall options.idiomatic ⟨call.calleeType, text⟩ call treatment) k fun text m =>
          m.Typed call ∧ Q text) :
    (∃ text imports, Q text ∧ compile target options source = .ok ⟨trimmed text, imports⟩) ∨
      ∃ fault, E fault ∧ compile target options source = .error fault := by
  have hroot := Tree.formed_of_parse hparse
  obtain ⟨s, rfl, -, hs, hvisited⟩ := exists_of_map_wrapped hparse hprogram
  have hmem := Tree.mem_nodes_trans hs (Tree.wrapped_mem_nodes (Tree.isNode_of_isVisited hvisited))
  have hnumeric : s.wrapped.calleeType.isNumeric = false := by
    generalize s.wrapped.calleeType = type at htreatment
    cases type
    all_goals first | rfl | cases htreatment
  obtain ⟨callee, rest, hsubtrees, -⟩ := hroot.exists_callee hmem hcall
  have hhead : s.wrapped.subtrees.head? = some callee := by rw [hsubtrees]; rfl
  obtain ⟨hk, type, hkin, -, htreated⟩ := hroot.exec_call hmem hcall hhead
    (Prod.ext (htext callee hhead) rfl)
  obtain rfl := hkin.eq_of_isNumeric hnumeric
  exact compile_of_ends htarget hparse hlength hprogram (htreated treatment htreatment)
    (h _ _ (Renderer.setting_within _ _ _)
      (Renderer.stands_below hroot hmem target (options.source source) options.idiomatic)
      (by rwa [Renderer.below, Renderer.target_within]))

end Compile

namespace Renderer

variable {r : Renderer} {root t : Tree} {b : Bool} {E : Fault → Prop} {j : Journal}

theorem ends_prepared_of_ready (h : r.Stands root b t) (hcall : t.isOf .functionCall)
    (hready : ∀ arg ∈ t.callArguments, Ready r.setting b arg)
    (hfit : ArgumentsFit r.target t.calleeType.parameters t.callArguments) {c : Callee}
    (hc : c.type = t.calleeType) {type : ValueType} (htype : type = t.calleeType.result)
    (hj : Coherent r.target root j.notes.mark) {f : List String → Render String}
    {Q : String → Marks → Prop}
    (hf : ∀ texts k, Coherent r.target root k.notes.mark → Marks.Typed k.notes.mark t →
      WroteArguments r.setting root b t.calleeType.parameters t.callArguments texts k.notes.mark →
      Ends (Coherent r.target root) E (f texts) k Q) :
    Ends (Coherent r.target root) E (do
      Render.setType t type
      let args ← r.callArguments b c t
      f args) j Q := by
  have hnatural : type = t.natural := htype.trans (t.natural_of_call hcall).symm
  refine h.noteNatural hj hnatural fun k hk htyped => ?_
  refine .bind (ends_callArguments_of_fit h hcall id c hc (.of_holds ⟨hready, hfit⟩ E) (fun h => h)
    hk.keeps htyped) fun texts k' hk' hargs => ?_
  exact hf texts k' hk'.keeps (htyped.after hk') hargs

end Renderer

end QueryScribe
