import QueryScribe.Proofs.ReadyCall

/-!
# Calls of what a call gives

What is called is known by its type alone, and a call of a class gives the type of the class. So what was
constructed can be called once more, with the arguments of its class, while the result of a function, which
has a type of its own, cannot. `compile_call_of_call` says this of every call of a call, through
parentheses and nodes that only wrap another (`Tree.ungrouped`).
-/

namespace QueryScribe

open Renderer QueryScribe.Tree
open Render (Ends exec)

/-- What stands below parentheses and nodes that only wrap another. -/
def Tree.ungrouped : Tree → Tree
  | node _ .setLiteral _ [node _ .testListComp _ [node id rule span cs]] => ungrouped (node id rule span cs)
  | node i r s [node id rule span cs] =>
    if r.isWrapper then ungrouped (node id rule span cs) else node i r s [node id rule span cs]
  | t => t

theorem Tree.natural_ungrouped (t : Tree) : t.ungrouped.natural = t.natural := by
  fun_induction ungrouped t with
  | case1 i s j u id rule span cs ih => exact ih.trans (natural_parenthesis rfl).symm
  | case2 i r s id rule span cs _ hwrapper ih => exact ih.trans (natural_wrapper (.inl hwrapper) rfl).symm
  | case3 => rfl
  | case4 => rfl

/-! ## Parts that are written alone -/

section Alone

variable {target : Target} {setting : Setting} {root t : Tree} {source : Source} {b : Bool}

/-- A node that is written plainly on its own is ready in every style, if the numbers that queries
convert in it can be converted. -/
theorem Tree.Formed.ready_of_render (hroot : root.Formed) (ht : t ∈ root.nodes) (hvisited : t.isVisited)
    (htarget : target ∈ Target.all) (h : (exec (render target source false t) {}).1.isOk)
    (hconverts : Setting.Queries ⟨target, source.names⟩ b → ∀ d ∈ t.nodes, d.isOf .objectLiteral →
      ∀ s, (Shape.ofTree d).Converts s → s.Convertible target) :
    Ready ⟨target, source.names⟩ b t where
  marked := Target.marked_of_mem htarget
  writable := by
    have hends := (writes_render hroot ht hvisited target source false (E := fun _ => True) (j := {})
      (fun _ _ _ => trivial) (.blank target root)).ends
    rcases hexec : exec (render target source false t) {} with ⟨fault | text, k⟩
    · rw [hexec] at h
      cases h
    · rw [hexec] at hends
      have hwritable := hends.1.writable (Target.marked_of_mem htarget)
      exact (hwritable.mono fun hqueries => by cases hqueries.1).of_false
  converts := hconverts

theorem Ready.of_parts (hmarked : setting.target.Marked) (hadmitted : t.Admitted setting)
    (hdocument : t.isOf .objectLiteral = false) (hparts : ∀ c ∈ t.parts, Ready setting b c) :
    Ready setting b t where
  marked := hmarked
  writable := .intro (fun _ => hadmitted) fun c hc _ => (hparts c hc).writable.of_false
  converts hqueries d hd hof := by
    rcases exists_part_of_mem_nodes hd with rfl | hcontainer | ⟨c, hc, hdc⟩
    · rw [hdocument] at hof
      cases hof
    · rw [isContainer, beq_iff_eq.1 hof] at hcontainer
      cases hcontainer
    · exact (hparts c hc).converts hqueries d hdc hof

end Alone

/-! ## Calls -/

theorem ValueType.Kin.uncallable {a b : ValueType} (h : a.Kin b) (hb : b.callable = .none) :
    a.treatment? = none ∧ a.callable = .none := by
  have ha : a.callable = .none := by
    rcases h with rfl | ⟨ha, -⟩
    · exact hb
    · cases a <;> first | rfl | cases ha
  refine ⟨?_, ha⟩
  cases a <;> first | rfl | cases ha

/-- What a call gives can be called exactly if a value of its type can. A program with such a call
compiles only if the arguments fit this type, or a query passes over a value in which the call stands. A
program that is such a call, with parts that can be written, compiles if they fit, while a type that
cannot be called makes it fail. -/
theorem compile_call_of_call {target : Target} {options : Options} {source : String}
    {root call inner : Tree} (htarget : target ∈ Target.all) (hparse : parse source = .ok root)
    (hlength : options.exceeded source.length = none) (hmem : call ∈ root.nodes)
    (hcall : call.isOf .functionCall) (hcallee : call.subtrees.head?.map ungrouped = some inner)
    (hinner : inner.isOf .functionCall) :
    (∀ output, compile target options source = .ok output →
      CallFits ⟨target, options.names⟩ inner.calleeType.result call.callArguments ∨
        (options.idiomatic ∧ target.helpers.isSome) ∧ ∃ c, PassedOver root c ∧ call ∈ c.nodes) ∧
    (root.children.map wrapped = [call] →
      (∀ c ∈ call.parts, (exec (render target (options.source source) false c) {}).1.isOk ∧
        (options.idiomatic ∧ target.helpers.isSome → ∀ d ∈ c.nodes, d.isOf .objectLiteral →
          ∀ s, (Shape.ofTree d).Converts s → s.Convertible target)) →
      ((∃ output, compile target options source = .ok output) ↔
        CallFits ⟨target, options.names⟩ inner.calleeType.result call.callArguments) ∧
      (inner.calleeType.result.callable = .none →
        ∃ f : Failure, compile target options source = .error (.failure f) ∧
          f.kind = .notCallable)) := by
  have hroot := formed_of_parse hparse
  have hrule : call.rule? = some .functionCall := beq_iff_eq.1 hcall
  obtain ⟨callee, rest, hsubtrees, hpart, hvisited, hnatural, hother⟩ := hroot.exists_callee hmem hcall
  have htype : inner.calleeType.result = call.calleeType := by
    rw [hsubtrees] at hcallee
    obtain rfl := Option.some.inj hcallee
    rw [← natural_of_call hinner, natural_ungrouped, hnatural]
  rw [htype]
  refine ⟨fun output h => ?_, fun hprogram hparts => ?_⟩
  · have hcontainer : call.isContainer = false := by rw [isContainer, hrule]; rfl
    rcases admitted_or_of_compile htarget h hparse hmem hcontainer (by rw [hrule]; rintro ⟨⟩) with
      hadmitted | ⟨hqueries, ⟨hpass, -⟩ | hover⟩
    · have hfits := hadmitted.2
      rw [hrule] at hfits
      exact .inl hfits
    · cases call with
      | leaf => cases hrule
      | node =>
        cases Option.some.inj hrule
        cases (exists_child_of_isPassThrough hpass).2
    · exact .inr ⟨hqueries, hover⟩
  · have hready : ∀ c ∈ call.parts, Ready ⟨target, options.names⟩ options.idiomatic c := fun c hc => by
      have hmem' := mem_nodes_trans hmem (mem_nodes_of_mem_parts hc)
      refine hroot.ready_of_render hmem' ?_ htarget (hparts c hc).1 (hparts c hc).2
      rcases hother c hc with rfl | hc
      · exact hvisited
      · exact hroot.isVisited_of_mem_callArguments hmem hcall hc
    refine ⟨⟨?_, fun hfits => ?_⟩, fun hnone => ?_⟩
    · rintro ⟨output, h⟩
      exact callFits_of_compile htarget hparse hprogram hcall h
    · have hadmitted : call.Admitted ⟨target, options.names⟩ := by
        refine ⟨by rw [isRefused, hrule]; rfl, ?_⟩
        rwa [hrule]
      have hready' := Ready.of_parts (Target.marked_of_mem htarget) hadmitted
        (by rw [isOf, hrule]; rfl) hready
      obtain ⟨_, _, hexec, hwrote, -⟩ := (writes_render hroot hmem (isVisited_of_rule? hrule rfl)
        target (options.source source) options.idiomatic (j := {}) (.of_holds hready' _)
        (.blank target root)).exists_ok
      exact ⟨_, compile_of_wrapped htarget hparse hlength hprogram hexec fun _ =>
        hwrote.typed call (.refl call)⟩
    · have hcallee : call.subtrees.head? = some callee := by rw [hsubtrees]; rfl
      obtain ⟨_, _, hexec, -⟩ := (writes_render hroot
        (mem_nodes_trans hmem (mem_nodes_of_mem_parts hpart)) hvisited target (options.source source)
        options.idiomatic (j := {}) (.of_holds (hready callee hpart) _) (.blank target root)).exists_ok
      obtain ⟨-, type, hkin, hother, -⟩ := hroot.exec_call hmem hcall hcallee hexec
      obtain ⟨htreatment, hcallable⟩ := hkin.uncallable hnone
      have hexec := hother htreatment
      rw [otherCall, if_pos hcallable] at hexec
      exact ⟨_, compile_of_wrapped htarget hparse hlength hprogram hexec (by rintro ⟨⟩), rfl⟩

set_option synthInstance.maxSize 256 in
/-- A number in parentheses is not called. -/
theorem compile_call_of_number :
    ∃ f : Failure, compile .java {} "(int(5))()" = .error (.failure f) ∧ f.kind = .notCallable := by
  have h : ∃ root ∈ (parse "(int(5))()").toOption, root.children.length = 1 ∧
      ∃ call ∈ root.children.map wrapped, call.isOf .functionCall ∧
        ∃ inner ∈ call.subtrees.head?.map ungrouped, inner.isOf .functionCall ∧
          inner.calleeType.result.callable = .none ∧
          ∀ c ∈ call.parts,
            (exec (render .java (Options.source {} "(int(5))()") false c) {}).1.isOk ∧
              ∀ d ∈ c.nodes, d.isOf .objectLiteral = false := by decide +kernel
  obtain ⟨root, hroot, hlength, call, hmem, hcall, inner, hcallee, hinner, hnone, hparts⟩ := h
  have hparse := eq_ok_of_mem_toOption hroot
  have hprogram := eq_singleton_of_mem ((List.length_map wrapped).trans hlength) hmem
  obtain ⟨s, rfl, -, hs, hvisited⟩ := exists_of_map_wrapped hparse hprogram
  refine ((compile_call_of_call List.mem_cons_self hparse (rfl : ({} : Options).exceeded _ = none)
    (mem_nodes_trans hs (wrapped_mem_nodes (isNode_of_isVisited hvisited))) hcall hcallee hinner).2
    hprogram fun c hc => ⟨(hparts c hc).1, fun _ d hd hof => ?_⟩).2 hnone
  rw [(hparts c hc).2 d hd] at hof
  cases hof

set_option synthInstance.maxSize 256 in
/-- What was constructed is called as its class is. -/
theorem compile_call_of_instance :
    ((compile .java {} "ObjectId()()").map (·.code)).toOption = some "new new ObjectId()()" ∧
      ∃ root ∈ (parse "ObjectId()()").toOption, ∃ call ∈ root.children.map wrapped,
        call.isOf .functionCall ∧ ∃ inner ∈ call.subtrees.head?.map ungrouped, inner.isOf .functionCall := by
  decide +kernel

end QueryScribe
