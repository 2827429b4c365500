import QueryScribe.Proofs.Writing.Query

/-!
# Documents

A document is written plainly from its keys and values, or as a query, and a set is written as an
array (`writes_objectLiteral`). A query leaves out some of what its document holds, and looks through
some of it, so a document that has become one can be written but for that (`wrote_of_query`).
-/

namespace QueryScribe

open List

open QueryScribe.Tree
open Render (Ends)

namespace Renderer

variable {r : Renderer} {root t : Tree} {b : Bool} {i : Nat} {span : Span} {cs : List Tree}

theorem writes_plainDocument
    (hnatural : (node i .objectLiteral span cs).natural = .object) {entries : List Tree}
    (hentries : ∀ e ∈ entries, ∃ key value, e.children = [key, value] ∧
      ∀ c ∈ e.children, c ∈ (node i .objectLiteral span cs).parts ∧ c.isVisited)
    (hparts : ∀ c ∈ (node i .objectLiteral span cs).parts, ∃ e ∈ entries, c ∈ e.children) :
    r.Handles root b (r.plainDocument · entries) (.node i .objectLiteral span cs) := by
  intro h E j hE hj
  have hplain : false → b := nofun
  refine h.noteNatural hj hnatural.symm fun k hk htyped => ?_
  refine .useThen hk.keeps fun k₁ hk₁ => ?_
  refine .bind (.mapM (S := fun e _ n => ∀ c ∈ e.children, Wrote r.setting root b c n) hk₁.keeps
    (fun _ _ _ _ hafter h c hc => (h c hc).after hafter) fun e he k₂ hk₂ => ?_)
    fun texts k₂ hk₂ htexts => .pure hk₂.keeps ⟨?_, ?_⟩
  · obtain ⟨key, value, hchildren, hc⟩ := hentries e he
    rw [hchildren] at hc ⊢
    refine .bind (h.visit hE hk₂.keeps (hc key (by simp)).1 (hc key (by simp)).2 hplain)
      fun keyText k₃ hk₃ ⟨hkey, _⟩ => ?_
    refine .bind (h.visit hE hk₃.keeps (hc value (by simp)).1 (hc value (by simp)).2 hplain)
      fun valueText k₄ hk₄ ⟨hvalue, _⟩ => ?_
    exact .pure hk₄.keeps (forall_mem_cons.2 ⟨(hkey.after hk₄).mono hplain,
      forall_mem_singleton.2 (hvalue.mono hplain)⟩)
  · have hwrote : ∀ e ∈ entries, ∀ c ∈ e.children, Wrote r.setting root b c k₂.notes.mark :=
      ((forall₂_and_left _ _).1 (htexts.imp fun _ _ h => And.intro h trivial)).1
    refine .of_parts h.formed h.mem rfl ⟨rfl, fun h => absurd rfl h⟩ (htyped.after (hk₁.trans hk₂))
      fun c hc => ?_
    obtain ⟨e, he, hce⟩ := hparts c hc
    exact hwrote e he c hce
  · exact .of_natural_ne (by rw [hnatural]; nofun)

/-- A document that became a query is written once the query covers it. -/
theorem wrote_of_query {n : Marks} (ht : .node i .objectLiteral span cs ∈ root.nodes)
    (htyped : n.Typed (.node i .objectLiteral span cs))
    (hcovered : Covered r root (.node i .objectLiteral span cs)) :
    Wrote r.setting root true (.node i .objectLiteral span cs) n := by
  have hspine : ∀ s, (node i .objectLiteral span cs).Spine s →
      s = .node i .objectLiteral span cs := by
    intro s hs
    cases hs with
    | refl => rfl
    | step hc _ =>
      rw [operands, isPassThrough_of_isCategory rfl] at hc
      cases hc
  exact ⟨fun s hs => hspine s hs ▸ htyped, fun s hs => hspine s hs ▸ ⟨ht, rfl, rfl⟩, hcovered⟩

theorem writes_objectLiteral :
    r.Handles root b (r.objectLiteral b) (.node i .objectLiteral span cs) := by
  intro h E j hE hj
  have hcs : cs = [] ∨ ∃ listing, cs = [listing] ∧ listing.isContainer := by
    cases cs with
    | nil => exact .inl rfl
    | cons listing rest =>
      obtain ⟨hlisting, rfl⟩ := h.formed.rule_of_listing h.mem rfl
      exact .inr ⟨listing, rfl, by rw [isContainer, hlisting]; rfl⟩
  refine .bind (ends_elements h hcs hE hj) fun es k hk hes => ?_
  obtain ⟨rfl, hno⟩ := hes
  rcases h.formed.document_cases h.mem hno with rfl | ⟨k', sp, first, rest, rfl, hkind⟩
  · have hparts : (node i .objectLiteral span []).parts = [] := parts_eq_nil (by simp)
    refine writes_plainDocument rfl ?_ ?_ h E k hE hk.keeps
    · simp
    · simp [hparts]
  have hnode : ∀ e ∈ first :: rest, e.isNode := by
    rcases hkind with hkind | hkind
    all_goals exact fun e he => isNode_of_rule? (hkind e he)
  have hsubtrees : [node k' .dictOrSet sp (first :: rest)].flatMap subtrees =
      first :: rest := by
    rw [flatMap_cons, flatMap_nil, append_nil]
    exact filter_eq_self.2 hnode
  have hnatural : (node i .objectLiteral span [.node k' .dictOrSet sp (first :: rest)]).natural =
      if first.isOf .keyValue then .object else .array := by
    rw [natural_node]
    change (node k' .dictOrSet sp (first :: rest)).natural = _
    rw [natural_node]
    rfl
  rw [hsubtrees]
  dsimp only
  rcases hkind with hkeys | htests
  · have hfirst : first.isOf .keyValue := beq_iff_eq.2 (hkeys first (.head _))
    rw [hfirst, if_pos rfl] at hnatural
    obtain ⟨hentries, hparts⟩ := h.formed.parts_of_entries h.mem hkeys
    have hplain := writes_plainDocument hnatural hentries hparts h
    rw [hfirst, Bool.not_true, if_neg Bool.false_ne_true]
    cases b with
    | false => exact hplain E k hE hk.keeps
    | true =>
      refine .bind (ends_query? h rfl hE hk.keeps) fun text? k₁ hk₁ hcovered => ?_
      cases text? with
      | none => exact hplain E k₁ hE hk₁.keeps
      | some text =>
        refine h.noteNatural hk₁.keeps hnatural.symm fun k₂ hk₂ htyped => ?_
        exact .pure hk₂.keeps ⟨wrote_of_query h.mem htyped (hcovered rfl),
          .of_natural_ne (by rw [hnatural]; decide)⟩
  · have hfirst : first.isOf .keyValue = false := by
      rw [isOf, htests first (.head _)]
      rfl
    have hvisited : ∀ e ∈ first :: rest, e.isVisited := fun e he =>
      isVisited_of_rule? (htests e he) rfl
    rw [hfirst, if_neg Bool.false_ne_true] at hnatural
    rw [hfirst, Bool.not_false, if_pos rfl]
    have hparts : ∀ c, c ∈ (node i .objectLiteral span
        [.node k' .dictOrSet sp (first :: rest)]).parts ↔ c ∈ first :: rest := by
      intro c
      rw [mem_parts_of_listing rfl, (parts_eq_children hvisited).1]
    exact writes_sequence h rfl ⟨rfl, fun h => absurd rfl h⟩ hnatural
      (fun e he => ⟨(hparts e).2 he, hvisited e he⟩) (fun c hc => (hparts c).1 hc) E k hE hk.keeps

end Renderer

end QueryScribe
