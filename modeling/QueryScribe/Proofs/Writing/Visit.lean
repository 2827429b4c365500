import QueryScribe.Proofs.Writing.Document

/-!
# Every node that is written

A node that stands where one is written is of a form of its rule, and each form is written as it
should be, so a step over a renderer that writes what is below does (`writes_step`). By induction on
the number of levels all renderers write such nodes as they should (`visits_within`), and so a
program is written, or ends in an expected fault if it is not ready (`ends_render`).
-/

namespace QueryScribe

open QueryScribe.Tree
open Render (Ends)

namespace Renderer

variable {r : Renderer} {root t c : Tree} {b : Bool} {i : Nat} {rule : Rule} {span : Span}
  {cs : List Tree}

theorem setting_within (target : Target) (source : Source) (n : Nat) :
    (within target source n).setting = ⟨target, source.names⟩ := by
  cases n <;> rfl

theorem ofRule_of_isWrapper (hrule : rule.isWrapper) (hc : c.isNode) :
    r.ofRule b (.node i rule span [c]) rule = r.collapse b (.node i rule span [c]) := by
  have hpass : (node i rule span [c]).isPassThrough :=
    isPassThrough_of_isWrapper (.inl hrule) hc
  cases rule
  all_goals first | rfl | exact if_pos hpass | cases hrule

theorem writes_qualified {d : Tree} {refused : Rule} (hrule : rule = .exprStmt ∨ rule = .argument)
    (hd : d.rule? = some refused) (hrefused : refused.isRefused) :
    r.Writes root b (.node i rule span [c, d]) (r.ofRule b (.node i rule span [c, d]) rule) := by
  intro E j hE hj
  have hvisited : d.isVisited := isVisited_of_rule? hd (by simp [Rule.isVisited, hrefused])
  have hmem : d ∈ (node i rule span [c, d]).parts :=
    mem_parts_of_isVisited (by simp [children]) hvisited
  have hready : ¬ Ready r.setting b (.node i rule span [c, d]) := by
    intro hready
    have hnot := hready.not_isRefused hmem
    rw [isRefused, hd, Option.any_some, hrefused] at hnot
    cases hnot
  have hof : r.ofRule b (.node i rule span [c, d]) rule = r.unsupported d := by
    rcases hrule with rfl | rfl
    · rfl
    · rfl
  rw [hof]
  cases d with
  | leaf => cases hd
  | node => exact hE.failAt hj (by rintro ⟨⟩) hready

theorem ofRule_of_literal {k : Nat} {token : Token} (hrule : token.kind ∈ rule.literalKinds) :
    r.ofRule b (.node i rule span [.leaf k token]) rule =
      r.simpleLiteral (.node i rule span [.leaf k token])
        (node i rule span [.leaf k token]).natural := by
  cases rule
  all_goals first | rfl | cases hrule

theorem writes_collection
    (hcs : cs = [] ∨ ∃ listing, cs = [listing] ∧ listing.rule? = rule.listing?)
    (hrule : rule.listing?.isSome) :
    r.Handles root b (r.ofRule b · rule) (.node i rule span cs) := by
  cases rule with
  | setLiteral => exact writes_setLiteral hcs
  | arrayLiteral => exact writes_arrayLiteral hcs
  | objectLiteral => exact writes_objectLiteral
  | _ => cases hrule

/-- A step writes a node that stands where one is written, over a renderer that writes what is
below. -/
theorem writes_step (h : r.Stands root b t) (hvisited : t.isVisited) :
    r.Writes root b t (r.step b t) := by
  cases t with
  | leaf => cases hvisited
  | node i rule span cs =>
    change r.Writes root b _ (r.ofRule b _ rule)
    cases h.formed.form_of_isVisited h.mem hvisited with
    | refused hrefused =>
      have hrefused' : (node i rule span cs).isRefused := hrefused
      cases rule
      all_goals first | exact writes_refused hrefused' nofun | cases hrefused
    | program => cases hvisited
    | line hcs => exact writes_statements hcs h
    | wrapper hrule hc =>
      rw [ofRule_of_isWrapper hrule (isNode_of_isVisited hc)]
      exact writes_collapse (.inl hrule) hvisited hc h
    | qualified hrule _ hd hrefused => exact writes_qualified hrule hd hrefused
    | @tuple c d cs hcs =>
      obtain ⟨hparts, hsubtrees⟩ : (node i .testListStar span (c :: d :: cs)).parts = _ ∧ _ :=
        parts_eq_children hcs
      change r.Writes root b _ (r.sequence b _ _)
      rw [hsubtrees]
      refine writes_sequence h rfl ⟨rfl, fun h => absurd rfl h⟩ rfl (fun e he => ⟨?_, hcs e he⟩)
        fun e he => hparts ▸ he
      rwa [hparts]
    | @literal _ k token hrule _ =>
      rw [ofRule_of_literal hrule]
      exact writes_simpleLiteral hrule h
    | string hcs => exact writes_stringLiteral hcs h
    | name => exact writes_identifier h
    | empty hrule => exact writes_collection (.inl rfl) hrule h
    | @collection _ listing c hlisting hc =>
      exact writes_collection (.inr ⟨c, rfl, hc.trans hlisting.symm⟩) (by rw [hlisting]; rfl) h
    | @logical _ c d cs hrule hcs =>
      cases rule with
      | orTest => exact writes_logical hrule hcs (fun hmarked => hmarked.disjunction) h
      | andTest => exact writes_logical hrule hcs (fun hmarked => hmarked.conjunction) h
      | _ => cases hrule
    | negation hc => exact writes_negation hc h
    | @comparison c cs hc hcs hne =>
      cases hcs with
      | nil => exact absurd rfl hne
      | cons => exact writes_comparison hc (.cons ‹_› ‹_› ‹_›) hne h
    | @operation _ c cs hrule hc hcs hne =>
      cases hcs with
      | nil => exact absurd rfl hne
      | cons hop hoperand hrest =>
        have hwrites := writes_operation hrule hc (.cons hop hoperand hrest) hne h
        cases rule
        all_goals first | exact hwrites | cases hrule
    | sign htoken hc => exact writes_sign hc htoken h
    | power hc hd => exact writes_power hc hd h
    | call _ => exact writes_call h rfl
    | callWith _ _ => exact writes_call h rfl
    | member hc => exact writes_memberAccess hc h
    | items hrule => rcases hrule with rfl | rfl <;> cases hvisited
    | entries | elements | comprehension | pair | operator => cases hvisited

/-- A renderer for some levels, and steps over it for nodes of one more. -/
theorem writes_succ (hroot : root.Formed) {n : Nat}
    (hr : ∀ s ∈ root.nodes, s.isVisited → s.height ≤ n → ∀ b, r.Visits root b s)
    (ht : t ∈ root.nodes) (hvisited : t.isVisited) (hheight : t.height ≤ n + 1) (b : Bool) :
    r.Writes root b t (if t.height ≤ n then r.visit b t else r.step b t) := by
  split
  · rename_i hn
    exact hr t ht hvisited hn b
  · refine writes_step ⟨hroot, ht, fun s hs hlt hs' b' _ => ?_⟩ hvisited
    exact hr s (mem_nodes_trans ht hs) hs' (by omega) b'

/-- All renderers write the nodes of a tree that was read as they should, if these have no more levels
than the renderer is for. -/
theorem visits_within (hroot : root.Formed) (target : Target) (source : Source) {n : Nat}
    (ht : t ∈ root.nodes) (hvisited : t.isVisited) (hheight : t.height ≤ n) (b : Bool) :
    (within target source n).Visits root b t := by
  induction n generalizing t b with
  | zero =>
    cases t with
    | leaf => cases hvisited
    | node => exact absurd hheight (Nat.not_succ_le_zero _)
  | succ n ih =>
    have hwrites := writes_succ hroot (fun s hs hs' hn b => ih hs hs' hn b) ht hvisited hheight b
    rw [← visit_within_succ] at hwrites
    unfold Visits
    unfold Writes at hwrites ⊢
    rwa [setting_within, target_within] at hwrites ⊢

end Renderer

variable {root : Tree} {E : Fault → Prop}

/-- How a node ends that is written from any notes: in a text, or in an expected fault, unless it was
ready. -/
theorem writes_render {t : Tree} (hroot : root.Formed) (ht : t ∈ root.nodes) (hvisited : t.isVisited)
    (target : Target) (source : Source) (b : Bool) {j : Journal}
    (hE : Allows ⟨target, source.names⟩ root E (Ready ⟨target, source.names⟩ b t)) (hj : Coherent target root j.notes.mark) :
    Ends (Coherent target root) E (render target source b t) j fun written n =>
      Wrote ⟨target, source.names⟩ root b t n ∧ Spelled target t written := by
  have hvisits := Renderer.visits_within hroot target source ht hvisited le_rfl b
  unfold Renderer.Visits Renderer.Writes at hvisits
  rw [Renderer.setting_within, Renderer.target_within] at hvisits
  exact hvisits E j hE hj

theorem ends_alone {t : Tree} (ht : t.Formed) (hvisited : t.isVisited) (target : Target)
    (source : Source) (b : Bool) :
    Ends (Coherent target t) (fun _ => True) (render target source b t) {} fun _ n => n.Typed t :=
  (writes_render ht (self_mem_nodes (isNode_of_isVisited hvisited)) hvisited target source b
    (fun _ _ _ => trivial) (.blank target t)).imp fun _ _ _ hwrote => hwrote.1.typed t (.refl t)

/-- How a program ends that is written from the start: in a text, and then its statements can be
written but for what queries leave out, or in an expected fault, unless they were all ready. -/
theorem Renderer.ends_program {r : Renderer} {source : String} (h : parse source = .ok root) {b : Bool}
    (hr : ∀ s ∈ root.nodes, s.isVisited → s.height < root.height → r.Visits root b s)
    (hE : Allows r.setting root E (∀ s ∈ root.subtrees, Ready r.setting b s)) :
    Ends (Coherent r.target root) E (r.step b root) {} fun _ _ =>
      r.target.Marked → ∀ s ∈ root.subtrees,
        Tree.Writable r.setting root (r.setting.Queries b) s := by
  have hroot := formed_of_parse h
  have hrule := rule?_of_parse h
  obtain ⟨i, span, cs, rfl⟩ := exists_of_rule? hrule
  have hmem : node i .fileInput span cs ∈ (node i .fileInput span cs).nodes :=
    self_mem_nodes rfl
  have hcs : ∀ c ∈ cs, c.isVisited := (hroot.form hmem (.inl rfl)).hasForm
  have hsubtrees : ∀ c ∈ (node i .fileInput span cs).subtrees,
      c ∈ (node i .fileInput span cs).children :=
    fun c hc => mem_children_of_mem_subtrees hc
  change Ends _ _ (r.program b _) _ _
  refine .bind (.mapM (S := fun c _ _ => r.target.Marked →
    Tree.Writable r.setting (node i .fileInput span cs) (r.setting.Queries b) c) (.blank r.target _) (fun _ _ _ _ _ h => h) fun c hc k hk => ?_) fun texts k hk htexts => ?_
  · have hc' := hsubtrees c hc
    have hwrites := hr c
      (mem_nodes_of_mem_children hc' (self_mem_nodes (isNode_of_isVisited (hcs c hc'))))
      (hcs c hc') (height_lt_of_mem_children hc')
    refine (hwrites E k (hE.mono fun hready => hready c hc) hk.keeps).imp fun _ _ _ hwrote => ?_
    exact hwrote.1.writable
  · refine .bind (.setType (Q := fun _ _ => True) hk.keeps hroot.distinct hmem (.inr rfl)
      fun _ _ _ => trivial) fun _ k' hk' _ => .pure hk'.keeps ?_
    have hwritable := ((List.forall₂_and_left _ _).1
      (htexts.imp fun _ _ h => And.intro h trivial)).1
    exact fun hmarked c hc => hwritable c hc hmarked

theorem ends_render {text : String} (h : parse text = .ok root) (target : Target) (source : Source)
    (b : Bool) (hE : Allows ⟨target, source.names⟩ root E
      (∀ s ∈ root.subtrees, Ready ⟨target, source.names⟩ b s)) :
    Ends (Coherent target root) E (render target source b root) {} fun _ _ =>
      target.Marked → ∀ s ∈ root.subtrees, Tree.Writable ⟨target, source.names⟩ root
        (Setting.Queries ⟨target, source.names⟩ b) s := by
  have hsetting : (Renderer.below target source root).setting = ⟨target, source.names⟩ :=
    Renderer.setting_within _ _ _
  have htarget : (Renderer.below target source root).target = target := Renderer.target_within _
  have hends := Renderer.ends_program (r := Renderer.below target source root) h (b := b) (E := E)
    (fun s hs hvisited hheight => Renderer.visits_within (formed_of_parse h) target source hs hvisited
      (Nat.le_sub_one_of_lt hheight) b) (by rwa [hsetting])
  rwa [hsetting, htarget, ← Renderer.render_eq_step] at hends

end QueryScribe
