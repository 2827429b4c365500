import QueryScribe.Proofs.Writing.Call

/-!
# Expressions

The forms of expressions other than calls and documents. Most take the type of their first part,
which is the natural type of the whole (`Stands.ends_typeFrom`). What is written of a string that is
not a literal holds a character that no option has: a bracket, an operator or a line break
(`Spelled`).
-/

namespace QueryScribe

open List

open QueryScribe.Tree
open Render (Ends)

/-! ## Parts of forms -/

namespace Tree

variable {c e listing t root : Tree} {id : Nat} {rule : Rule} {span : Span} {cs : List Tree}

@[simp]
theorem isNode_leaf (token : Token) : (leaf id token).isNode = false := rfl

theorem parts_of_isVisited (h : ∀ c ∈ cs, c.isNode → c.isVisited) :
    (node id rule span cs).parts = cs.filter isNode := by
  refine parts_eq_subtrees fun c hc => ?_
  cases c with
  | leaf => rfl
  | node => exact isContainer_of_isVisited (h _ hc rfl)

theorem parts_eq_children (h : ∀ c ∈ cs, c.isVisited) :
    (node id rule span cs).parts = cs ∧ (node id rule span cs).subtrees = cs := by
  have hfilter : cs.filter isNode = cs :=
    filter_eq_self.2 fun c hc => isNode_of_isVisited (h c hc)
  exact ⟨(parts_of_isVisited fun c hc _ => h c hc).trans hfilter, hfilter⟩

theorem parts_of_operand {k : Nat} {token : Token} (hc : c.isVisited) :
    (node id rule span [.leaf k token, c]).parts = [c] ∧
      (node id rule span [.leaf k token, c]).subtrees = [c] := by
  have hfilter : [.leaf k token, c].filter isNode = [c] := by simp [isNode_of_isVisited hc]
  exact ⟨(parts_of_isVisited (by simp [hc])).trans hfilter, hfilter⟩

theorem parts_eq_nil (h : ∀ c ∈ cs, c.isNode = false) : (node id rule span cs).parts = [] := by
  rw [parts_of_isVisited fun c hc hnode => absurd hnode (Bool.eq_false_iff.1 (h c hc))]
  exact filter_eq_nil_iff.2 fun c hc => Bool.eq_false_iff.1 (h c hc)

theorem mem_parts_of_listing (hlisting : listing.isContainer) :
    c ∈ (node id rule span [listing]).parts ↔ c ∈ listing.parts := by
  rw [mem_parts]
  constructor
  · rintro ⟨d, hd, hc⟩
    rw [mem_singleton.1 hd, if_pos hlisting] at hc
    exact hc
  · intro hc
    exact ⟨listing, mem_singleton_self _, by rwa [if_pos hlisting]⟩

theorem isPassThrough_of_isWrapper (hrule : rule.isWrapper ∨ rule = .simpleStmt) (hc : c.isNode) :
    (node id rule span [c]).isPassThrough := by
  have hcategory : rule.isCategory = false := by
    rcases hrule with hrule | rfl
    · cases rule
      all_goals first | rfl | cases hrule
    · rfl
  rw [isPassThrough, hc, hcategory]
  rfl

theorem isPassThrough_of_isCategory (hrule : rule.isCategory) :
    (node id rule span cs).isPassThrough = false := by
  unfold isPassThrough
  split
  · rename_i heq
    cases heq
    rw [hrule, Bool.not_true, Bool.and_false]
  · rfl

theorem core_of_isPassThrough (h : (node id rule span [c]).isPassThrough) :
    (node id rule span [c]).core = c.core := by
  rw [core, skipUntil]
  simp [h, core]

theorem core_of_not_isPassThrough (h : t.isPassThrough = false) : t.core = t := by
  unfold core skipUntil
  split
  · simp [h]
  · rfl

theorem admitted_of_isWrapper {setting : Setting} (hrule : rule.isWrapper ∨ rule = .simpleStmt) :
    (node id rule span cs).Admitted setting := by
  rcases hrule with hrule | rfl
  · cases rule
    all_goals first | exact ⟨rfl, fun h => absurd rfl h⟩ | cases hrule
  · exact ⟨rfl, fun h => absurd rfl h⟩

theorem visited_of_joins (hrule : rule.isLogical ∨ rule.isOperation) :
    (rule.isWrapper ∨ rule = .simpleStmt) ∧ (node id rule span cs).isVisited ∧
      (node id rule span cs).isOf .stringLiteral = false := by
  rcases hrule with hrule | hrule <;> cases rule
  all_goals first | exact ⟨.inl rfl, rfl, rfl⟩ | cases hrule

theorem isListing_of_isWrapper (hrule : rule.isWrapper ∨ rule = .simpleStmt) :
    (node id rule span cs).isListing = false := by
  rcases hrule with hrule | rfl
  · cases rule
    all_goals first | rfl | cases hrule
  · rfl

end Tree

variable {setting : Setting} {target : Target} {t : Tree}

/-- What is written of a node that does not pass through holds a character that no option has, if it is
a string. -/
theorem Spelled.of_foreign {text : String} (hpass : t.isPassThrough = false)
    (hstring : t.isOf .stringLiteral = false)
    (h : target.Marked → t.natural = .string → ∃ c ∈ text.toList, isForeign c) :
    Spelled target t text := by
  intro hmarked hnatural
  rw [core_of_not_isPassThrough hpass, hstring, if_neg Bool.false_ne_true]
  exact h hmarked hnatural

theorem Spelled.of_natural_ne {text : String} (h : t.natural ≠ .string) :
    Spelled target t text :=
  fun _ hnatural => absurd hnatural h

theorem Ready.not_isRefused {b : Bool} {c : Tree} (h : Ready setting b t) (hc : c ∈ t.parts) :
    c.isRefused = false :=
  (h.of_mem_nodes (mem_nodes_of_mem_parts hc) (isContainer_of_mem_parts hc) id).admitted.1

namespace Renderer

variable {r : Renderer} {root t c : Tree} {b : Bool} {E : Fault → Prop} {j : Journal}

theorem Stands.ends_typeFrom (h : r.Stands root b t) (hcontainer : t.isContainer = false)
    (hlisting : t.isListing = false) (hc : c ∈ t.parts) (hnatural : t.natural = c.natural)
    (hj : Coherent r.target root j.notes.mark) (htyped : Marks.Typed j.notes.mark c) {text : String}
    {Q : String → Marks → Prop}
    (hQ : ∀ n, Marks.After (Coherent r.target root) j.notes.mark n → n.Typed t → Q text n) :
    Ends (Coherent r.target root) E (do
      Render.setType t (← Render.typeOf c)
      return text) j Q := by
  refine .bind (.typeOf (Q := fun type n => n.Typed t ∨ type = t.natural) hj htyped fun type htype => ?_)
    fun type k hk htype => ?_
  · rw [hnatural]
    exact hj.typed_or_eq_natural h.mem hcontainer hlisting hc htype
  · refine .bind (.setType (Q := fun _ n => n.Typed t) hk.keeps h.formed.distinct h.mem htype
      fun n _ htyped => htyped) fun _ k' hk' htyped => ?_
    exact .pure hk'.keeps (hQ _ (hk.trans hk') htyped)

/-! ## Nodes around others -/

/-- A node with one part, of whose type it is, is written as that part with something around. -/
theorem writes_around (h : r.Stands root b t) (hvisited : t.isVisited)
    (hadmitted : t.Admitted r.setting) (hlisting : t.isListing = false) (hparts : t.parts = [c])
    (hc : c.isVisited) (hnatural : t.natural = c.natural) {around : String → String}
    (haround : ∀ text, Spelled r.target c text → Spelled r.target t (around text)) :
    r.Writes root b t (do
      let text ← r.visit b c
      Render.setType t (← Render.typeOf c)
      return around text) := by
  intro E j hE hj
  have hmem : c ∈ t.parts := hparts ▸ mem_singleton_self c
  refine .bind (h.visit hE hj hmem hc id) fun text k hk ⟨hwrote, hspelled⟩ => ?_
  refine h.ends_typeFrom (isContainer_of_isVisited hvisited) hlisting hmem hnatural hk.keeps
    (hwrote.typed c (.refl c)) fun n hn htyped => ⟨?_, haround text hspelled⟩
  refine .of_parts h.formed h.mem hvisited hadmitted htyped ?_
  rw [hparts]
  exact forall_mem_singleton.2 (hwrote.after hn)

variable {i k : Nat} {rule : Rule} {span : Span} {cs : List Tree} {token : Token}

theorem writes_collapse (hrule : rule.isWrapper ∨ rule = .simpleStmt)
    (hvisited : (node i rule span [c]).isVisited) (hc : c.isVisited) :
    r.Handles root b (r.collapse b) (.node i rule span [c]) := by
  intro h
  have hnode := isNode_of_isVisited hc
  have hnatural : (node i rule span [c]).natural = c.natural := natural_wrapper hrule hnode
  have hcore : (node i rule span [c]).core = c.core :=
    core_of_isPassThrough (isPassThrough_of_isWrapper hrule hnode)
  refine writes_around h hvisited (admitted_of_isWrapper hrule) (isListing_of_isWrapper hrule)
    (parts_eq_children (forall_mem_singleton.2 hc)).1 hc hnatural fun text hspelled => ?_
  unfold Spelled at hspelled ⊢
  rwa [hnatural, hcore]

theorem writes_refused (h : t.isRefused) {s : Tree} {cause : Cause} (hcause : cause.kind ≠ .internal) :
    r.Writes root b t (r.failAt s cause) := by
  intro E j hE hj
  refine hE.failAt hj hcause fun hready => ?_
  rw [hready.admitted.1] at h
  cases h

theorem writes_statements (hcs : ∀ d ∈ c :: cs, d.isVisited) :
    r.Handles root b (r.statements b) (.node i .simpleStmt span (c :: cs)) := by
  intro h E j hE hj
  obtain ⟨hparts, hsubtrees⟩ : (node i .simpleStmt span (c :: cs)).parts = c :: cs ∧ _ :=
    parts_eq_children hcs
  have hmem : ∀ d ∈ c :: cs, d ∈ (node i .simpleStmt span (c :: cs)).parts :=
    fun d hd => by rwa [hparts]
  have hnatural : (node i .simpleStmt span (c :: cs)).natural = c.natural := by
    rw [natural_node]
    change ((node i .simpleStmt span (c :: cs)).subtrees.map natural).headD .undefined = _
    rw [hsubtrees]
    rfl
  unfold statements
  rw [hsubtrees]
  refine .bind (.mapM (S := fun d text n => Wrote r.setting root b d n ∧
    ∃ text', Spelled r.target d text' ∧ text = text' ++ r.target.endOfStatement) hj
    (fun _ _ _ _ hafter h => ⟨h.1.after hafter, h.2⟩) fun d hd k hk => ?_) fun texts k hk htexts => ?_
  · refine .bind (h.visit hE hk.keeps (hmem d hd) (hcs d hd) fun h => h) fun text k' hk' hd => ?_
    exact .pure hk'.keeps ⟨hd.1, text, hd.2, rfl⟩
  obtain ⟨hwrote, hspelled⟩ := (forall₂_and_left _ _).1 htexts
  refine h.ends_typeFrom rfl rfl (hmem c (.head _)) hnatural hk.keeps
    ((hwrote c (.head _)).typed c (.refl c)) fun n hn htyped => ⟨?_, ?_⟩
  · refine .of_parts h.formed h.mem rfl ⟨rfl, fun h => absurd rfl h⟩ htyped fun d hd => ?_
    rw [hparts] at hd
    exact (hwrote d hd).after hn
  · obtain _ | @⟨_, first, _, rest, ⟨text, hspelled, rfl⟩, hrest⟩ := hspelled
    cases hrest with
    | nil =>
      -- A single statement is what is written of it.
      intro hmarked hstring
      have hcore : (node i .simpleStmt span [c]).core = c.core :=
        core_of_isPassThrough (isPassThrough_of_isWrapper (.inr rfl)
          (isNode_of_isVisited (hcs c (.head _))))
      rw [hnatural] at hstring
      have hspelled := hspelled hmarked hstring
      rwa [hcore, hmarked.endOfStatement, String.append_empty, String.intercalate_singleton]
    | cons _ _ =>
      refine .of_foreign rfl rfl fun _ _ => ⟨'\n', ?_, by decide⟩
      rw [String.toList_intercalate]
      simp

/-! ## Collections -/

theorem writes_sequence (h : r.Stands root b t) (hvisited : t.isVisited)
    (hadmitted : t.Admitted r.setting) (hnatural : t.natural = .array) {elements : List Tree}
    (helements : ∀ e ∈ elements, e ∈ t.parts ∧ e.isVisited) (hparts : ∀ c ∈ t.parts, c ∈ elements) :
    r.Writes root b t (r.sequence b t elements) := by
  intro E j hE hj
  refine h.noteNatural hj hnatural.symm fun k hk htyped => ?_
  refine .useThen hk.keeps fun k₁ hk₁ => ?_
  refine .bind (h.visitAll hE hk₁.keeps helements) fun texts k₂ hk₂ htexts => .pure hk₂.keeps ⟨?_, ?_⟩
  · refine .of_parts h.formed h.mem hvisited hadmitted (htyped.after (hk₁.trans hk₂)) fun c hc => ?_
    exact ((forall₂_and_left _ _).1 htexts).1 c (hparts c hc)
  · exact .of_natural_ne (by rw [hnatural]; nofun)

theorem writes_stringLiteral (hcs : ∀ c ∈ cs, c.isNode = false) :
    r.Handles root b r.stringLiteral (.node i .stringLiteral span cs) := by
  intro h E j hE hj
  refine h.noteNatural hj rfl fun k hk htyped => ?_
  refine .useThen hk.keeps fun k₁ hk₁ => ?_
  refine .pure hk₁.keeps ⟨?_, fun _ _ => ?_⟩
  · refine .of_parts h.formed h.mem rfl ⟨rfl, fun h => absurd rfl h⟩ (htyped.after hk₁) fun c hc => ?_
    rw [parts_eq_nil hcs] at hc
    cases hc
  · have hpass : (node i .stringLiteral span cs).isPassThrough = false := by
      rw [← Bool.not_eq_true]
      intro hpass
      obtain ⟨⟨child, rfl⟩, -⟩ := exists_child_of_isPassThrough hpass
      rw [isPassThrough, hcs child (mem_singleton_self child)] at hpass
      cases hpass
    rw [core_of_not_isPassThrough hpass]
    rfl

/-- The elements of a collection, which may not be a comprehension. -/
theorem ends_elements (h : r.Stands root b (.node i rule span cs))
    (hcs : cs = [] ∨ ∃ listing, cs = [listing] ∧ listing.isContainer)
    (hE : Allows r.setting root E (Ready r.setting b (.node i rule span cs)))
    (hj : Coherent r.target root j.notes.mark) :
    Ends (Coherent r.target root) E (r.elements (.node i rule span cs)) j fun es _ =>
      es = cs.flatMap subtrees ∧ ∀ e ∈ es, e.isOf .compFor = false := by
  rcases hcs with rfl | ⟨listing, rfl, hlisting⟩
  · exact .pure hj ⟨rfl, forall_mem_nil _⟩
  · have hflat : [listing].flatMap subtrees = listing.subtrees := by simp
    rw [elements, children, hflat]
    dsimp only
    split
    · rename_i hany
      obtain ⟨e, he, hof⟩ := any_eq_true.1 hany
      refine hE.failAt hj (by rintro ⟨⟩) fun hready => ?_
      have hrule : e.rule? = some .compFor := beq_iff_eq.1 hof
      have hmem : e ∈ (node i rule span [listing]).parts := by
        rw [mem_parts_of_listing hlisting, mem_parts]
        refine ⟨e, mem_children_of_mem_subtrees he, ?_⟩
        have hcontainer : e.isContainer = false := by rw [isContainer, hrule]; rfl
        rw [hcontainer]
        exact ⟨(mem_filter.1 he).2, rfl⟩
      have hrefused := hready.not_isRefused hmem
      rw [isRefused, hrule] at hrefused
      cases hrefused
    · rename_i hany
      refine .pure hj ⟨rfl, fun e he => Bool.eq_false_iff.2 fun hof => hany ?_⟩
      exact any_eq_true.2 ⟨e, he, hof⟩

section Collections

variable (hcs : cs = [] ∨ ∃ listing, cs = [listing] ∧ listing.rule? = some .testListComp)

include hcs

theorem isContainer_of_collection : cs = [] ∨ ∃ listing, cs = [listing] ∧ listing.isContainer := by
  rcases hcs with rfl | ⟨listing, rfl, hrule⟩
  · exact .inl rfl
  · exact .inr ⟨listing, rfl, by rw [isContainer, hrule]; rfl⟩

theorem parts_of_collection (hroot : root.Formed) (ht : .node i rule span cs ∈ root.nodes) :
    (node i rule span cs).parts = cs.flatMap subtrees ∧
      ∀ e ∈ cs.flatMap subtrees, e.isVisited := by
  rcases hcs with rfl | ⟨listing, rfl, hrule⟩
  · exact ⟨rfl, nofun⟩
  · have hlisting : listing.isContainer := by rw [isContainer, hrule]; rfl
    have hnode : listing.isNode := by
      cases listing with
      | leaf => cases hrule
      | node => rfl
    have hmem : listing ∈ root.nodes := mem_nodes_trans ht
      (mem_nodes_of_mem_children (mem_singleton_self _) (self_mem_nodes hnode))
    obtain ⟨hvisited, hparts⟩ := hroot.parts_of_items hmem (.inr hrule)
    have hflat : [listing].flatMap subtrees = listing.subtrees := by simp
    rw [hflat]
    refine ⟨?_, fun e he => hvisited e (mem_children_of_mem_subtrees he)⟩
    rw [parts, partsIn, if_pos hlisting, partsIn, append_nil, hparts]

theorem writes_arrayLiteral :
    r.Handles root b (r.arrayLiteral b) (.node i .arrayLiteral span cs) := by
  intro h E j hE hj
  obtain ⟨hparts, hvisited⟩ := parts_of_collection hcs h.formed h.mem
  refine .bind (ends_elements h (isContainer_of_collection hcs) hE hj) fun es k hk ⟨hes, _⟩ => ?_
  subst hes
  refine writes_sequence h rfl ⟨rfl, fun h => absurd rfl h⟩ rfl (fun e he => ⟨?_, hvisited e he⟩)
    (fun c hc => hparts ▸ hc) E k hE hk.keeps
  rwa [hparts]

/-- The natural type of a parenthesized expression or a tuple. -/
theorem natural_setLiteral (hroot : root.Formed) (ht : .node i .setLiteral span cs ∈ root.nodes) :
    (node i .setLiteral span cs).natural = match cs.flatMap subtrees with
      | [element] => element.natural
      | _ => .array := by
  rcases hcs with rfl | ⟨listing, rfl, hrule⟩
  · rfl
  · obtain ⟨k, span', ds, rfl⟩ := exists_of_rule? hrule
    have hmem : .node k .testListComp span' ds ∈ root.nodes := mem_nodes_trans ht
      (mem_nodes_of_mem_children (mem_singleton_self _) (self_mem_nodes rfl))
    obtain ⟨hitems, -⟩ := hroot.parts_of_items hmem (.inr rfl)
    have hfilter : ds.filter isNode = ds :=
      filter_eq_self.2 fun e he => isNode_of_isVisited (hitems e he)
    have hflat : [node k .testListComp span' ds].flatMap subtrees = ds := by
      simp [subtrees, children, hfilter]
    have hnatural : (node i .setLiteral span [.node k .testListComp span' ds]).natural =
        (node k .testListComp span' ds).natural := by
      rw [natural_node]
      rfl
    rw [hflat, hnatural, natural_node, hfilter]
    obtain _ | ⟨e, _ | ⟨f, ds⟩⟩ := ds
    · rfl
    · rfl
    · rfl

theorem writes_setLiteral : r.Handles root b (r.setLiteral b) (.node i .setLiteral span cs) := by
  intro h E j hE hj
  obtain ⟨hparts, hvisited⟩ := parts_of_collection hcs h.formed h.mem
  have hnatural := natural_setLiteral hcs h.formed h.mem
  have hadmitted : (node i .setLiteral span cs).Admitted r.setting := ⟨rfl, fun h => absurd rfl h⟩
  refine .bind (ends_elements h (isContainer_of_collection hcs) hE hj) fun es k hk hes => ?_
  rw [← hes.1] at hparts hvisited hnatural
  clear hes
  split
  · rename_i element
    refine writes_around h rfl hadmitted rfl hparts
      (hvisited element (mem_singleton_self element)) hnatural (fun text _ => ?_) E k hE hk.keeps
    refine .of_foreign (isPassThrough_of_isCategory rfl) rfl fun _ _ => ⟨'(', ?_, by decide⟩
    simp
  · rename_i hsingle
    have harray : (node i .setLiteral span cs).natural = .array := by
      rw [hnatural]
      split
      · exact absurd rfl (hsingle _)
      · rfl
    refine writes_sequence h rfl hadmitted harray (fun e he => ⟨?_, hvisited e he⟩)
      (fun c hc => hparts ▸ hc) E k hE hk.keeps
    rwa [hparts]

end Collections

/-! ## Operators -/

variable {d : Tree}

theorem writes_logical (hrule : rule.isLogical) (hcs : ∀ e ∈ c :: d :: cs, e.isVisited)
    {join : List String → String}
    (hjoin : r.target.Marked → ∀ x y texts, ∃ char ∈ (join (x :: y :: texts)).toList, isForeign char) :
    r.Handles root b (r.logical b · join) (.node i rule span (c :: d :: cs)) := by
  intro h E j hE hj
  obtain ⟨hwrapper, hvisited, hstring⟩ : _ ∧ (node i rule span (c :: d :: cs)).isVisited ∧ _ :=
    visited_of_joins (.inl hrule)
  obtain ⟨hparts, hsubtrees⟩ : (node i rule span (c :: d :: cs)).parts = c :: d :: cs ∧ _ :=
    parts_eq_children hcs
  have hmem : ∀ e ∈ c :: d :: cs, e ∈ (node i rule span (c :: d :: cs)).parts :=
    fun e he => by rwa [hparts]
  have hnatural : (node i rule span (c :: d :: cs)).natural = c.natural := by
    rw [natural_node]
    change rule.natural _ ((node i rule span (c :: d :: cs)).subtrees.map natural) = _
    rw [hsubtrees]
    cases rule
    all_goals first | rfl | cases hrule
  dsimp only [logical]
  rw [hsubtrees]
  refine .bind (h.visitAll hE hj fun e he => ⟨hmem e he, hcs e he⟩) fun texts k hk htexts => ?_
  obtain ⟨hwrote, hspelled⟩ := (forall₂_and_left _ _).1 htexts
  refine h.ends_typeFrom (isContainer_of_isVisited hvisited) (isListing_of_isWrapper hwrapper)
    (hmem c (.head _)) hnatural hk.keeps ((hwrote c (.head _)).typed c (.refl c))
    fun n hn htyped => ⟨?_, ?_⟩
  · refine .of_parts h.formed h.mem hvisited (admitted_of_isWrapper hwrapper) htyped fun e he => ?_
    rw [hparts] at he
    exact (hwrote e he).after hn
  · obtain _ | @⟨_, x, _, _, _, _ | @⟨_, y, _, texts, _, _⟩⟩ := hspelled
    exact .of_foreign rfl hstring fun hmarked _ => hjoin hmarked x y texts

theorem writes_negation (hc : c.isVisited) :
    r.Handles root b (r.negation b) (.node i .notTest span [.leaf k token, c]) := by
  intro h E j hE hj
  obtain ⟨hparts, hsubtrees⟩ : (node i .notTest span [.leaf k token, c]).parts = [c] ∧ _ :=
    parts_of_operand hc
  have hmem : c ∈ (node i .notTest span [.leaf k token, c]).parts := by
    rw [hparts]
    exact mem_singleton_self c
  unfold negation
  rw [hsubtrees]
  refine .bind (h.visit hE hj hmem hc id) fun text k₁ hk₁ ⟨hwrote, _⟩ => ?_
  refine h.noteNatural hk₁.keeps rfl fun k₂ hk₂ htyped => ?_
  refine .pure hk₂.keeps ⟨?_, .of_natural_ne nofun⟩
  refine .of_parts h.formed h.mem rfl ⟨rfl, fun h => absurd rfl h⟩ htyped ?_
  rw [hparts]
  exact forall_mem_singleton.2 (hwrote.after hk₂)

theorem everySecond_of_alternates (hc : c.isVisited)
    (hcs : Alternates (·.rule? = some .compOp) (·.isVisited) cs) :
    (∀ d ∈ everySecond (c :: cs), d.isVisited) ∧
      ∀ d ∈ c :: cs, d ∈ everySecond (c :: cs) ∨ d.rule? = some .compOp := by
  induction hcs generalizing c with
  | nil => exact ⟨forall_mem_singleton.2 hc, fun d hd => .inl hd⟩
  | cons hop hoperand _ ih =>
    obtain ⟨hvisited, hmem⟩ := ih hoperand
    refine ⟨forall_mem_cons.2 ⟨hc, hvisited⟩, forall_mem_cons.2
      ⟨.inl (.head _), forall_mem_cons.2 ⟨.inr hop, fun d hd => ?_⟩⟩⟩
    exact (hmem d hd).imp_left (mem_cons_of_mem _)

theorem mem_everySecond_of_mem_parts (hroot : root.Formed)
    (ht : .node i .comparison span (c :: cs) ∈ root.nodes) (hc : c.isVisited)
    (hcs : Alternates (·.rule? = some .compOp) (·.isVisited) cs)
    (hd : d ∈ (node i .comparison span (c :: cs)).parts) : d ∈ everySecond (c :: cs) := by
  obtain ⟨hvisited, hmem⟩ := everySecond_of_alternates hc hcs
  obtain ⟨e, he, hd⟩ := mem_parts.1 hd
  rcases hmem e he with h | hop
  · rw [isContainer_of_isVisited (hvisited e h)] at hd
    exact hd.2 ▸ h
  · -- An operator has no parts.
    obtain ⟨k, span', es, rfl⟩ := exists_of_rule? hop
    have hnodes : .node k .compOp span' es ∈ root.nodes := mem_nodes_trans ht
      (mem_nodes_of_mem_children he (self_mem_nodes rfl))
    change d ∈ (node k .compOp span' es).parts at hd
    rw [parts_eq_nil (hroot.form hnodes (.inl rfl)).hasForm] at hd
    cases hd

theorem writes_comparison (hc : c.isVisited)
    (hcs : Alternates (·.rule? = some .compOp) (·.isVisited) cs) (hne : cs ≠ []) :
    r.Handles root b (r.comparison b) (.node i .comparison span (c :: cs)) := by
  intro h E j hE hj
  have hnatural : (node i .comparison span (c :: cs)).natural = .bool := by
    rw [natural_node]
    cases cs with
    | nil => exact absurd rfl hne
    | cons => rfl
  obtain ⟨hvisited, -⟩ := everySecond_of_alternates hc hcs
  refine .bind (h.visitAll hE hj fun d hd => ⟨?_, hvisited d hd⟩) fun texts k hk htexts => ?_
  · exact mem_parts_of_isVisited (mem_of_mem_everySecond hd) (hvisited d hd)
  refine h.noteNatural hk.keeps hnatural.symm fun k' hk' htyped => ?_
  have hwrote : Wrote r.setting root b (.node i .comparison span (c :: cs)) k'.notes.mark := by
    refine .of_parts h.formed h.mem rfl ⟨rfl, fun h => absurd rfl h⟩ htyped fun d hd => ?_
    exact (((forall₂_and_left _ _).1 htexts).1 d
      (mem_everySecond_of_mem_parts h.formed h.mem hc hcs hd)).after hk'
  have hspelled : ∀ text, Spelled r.target (.node i .comparison span (c :: cs)) text := fun text =>
    .of_natural_ne (by rw [hnatural]; nofun)
  split
  · exact .pure hk'.keeps ⟨hwrote, hspelled _⟩
  · exact .pure hk'.keeps ⟨hwrote, hspelled _⟩

theorem ends_operations (h : r.Stands root b t) (hE : Allows r.setting root E (Ready r.setting b t))
    (hj : Coherent r.target root j.notes.mark) (text : String)
    (hcs : Alternates (·.isNode = false) (·.isVisited) cs)
    (hmem : ∀ d ∈ cs, d.isVisited → d ∈ t.parts) :
    Ends (Coherent r.target root) E (r.operations b text cs) j fun text' n =>
      (∀ d ∈ cs, d.isVisited → Wrote r.setting root b d n) ∧
        (r.target.Marked → (cs = [] → ∃ char ∈ text.toList, isForeign char) →
          ∃ char ∈ text'.toList, isForeign char) := by
  induction hcs generalizing text j with
  | nil => exact .pure hj ⟨nofun, fun _ h => h rfl⟩
  | @cons op operand rest hop hoperand hrest ih =>
    cases op with
    | node => cases hop
    | leaf k token =>
      refine .bind (h.visit hE hj (hmem operand (by simp) hoperand) hoperand id)
        fun second k hk ⟨hwrote, _⟩ => ?_
      refine (ih hk.keeps (r.target.operate token.text text second) fun d hd =>
        hmem d (by simp [hd])).imp fun text' n hn ⟨hrest, hforeign⟩ => ⟨?_, fun hmarked _ => ?_⟩
      · refine forall_mem_cons.2 ⟨nofun, forall_mem_cons.2 ⟨fun _ => hwrote.after hn, hrest⟩⟩
      · exact hforeign hmarked fun _ => hmarked.operate _ _ _

theorem writes_operation (hrule : rule.isOperation) (hc : c.isVisited)
    (hcs : Alternates (·.isNode = false) (·.isVisited) cs) (hne : cs ≠ []) :
    r.Handles root b (r.operation b) (.node i rule span (c :: cs)) := by
  intro h E j hE hj
  obtain ⟨hwrapper, hvisited, hstring⟩ : _ ∧ (node i rule span (c :: cs)).isVisited ∧ _ :=
    visited_of_joins (.inr hrule)
  have hall : ∀ d ∈ c :: cs, d.isNode → d.isVisited := forall_mem_cons.2 ⟨fun _ => hc,
    fun d hd hnode => (hcs.forall_mem d hd).resolve_left (by rw [hnode]; nofun)⟩
  have hparts : ∀ d ∈ (node i rule span (c :: cs)).parts, d = c ∨ d ∈ cs ∧ d.isVisited := by
    intro d hd
    rw [parts_of_isVisited hall] at hd
    obtain ⟨hd, hnode⟩ := mem_filter.1 hd
    exact (mem_cons.1 hd).imp_right fun hd' => ⟨hd', hall d hd hnode⟩
  have hmem : ∀ d ∈ c :: cs, d.isVisited → d ∈ (node i rule span (c :: cs)).parts :=
    fun d hd hvisited => mem_parts_of_isVisited hd hvisited
  have hnatural : (node i rule span (c :: cs)).natural = c.natural := by
    rw [natural_node, filter_cons_of_pos (isNode_of_isVisited hc)]
    cases rule
    all_goals first | rfl | cases hrule
  refine .bind (h.visit hE hj (hmem c (.head _) hc) hc id) fun text k hk ⟨hwrote, _⟩ => ?_
  refine .bind (ends_operations h hE hk.keeps text hcs fun d hd =>
    hmem d (mem_cons_of_mem c hd)) fun text' k' hk' ⟨hoperands, hforeign⟩ => ?_
  have hwrote := hwrote.after hk'
  refine h.ends_typeFrom (isContainer_of_isVisited hvisited) (isListing_of_isWrapper hwrapper)
    (hmem c (.head _) hc) hnatural hk'.keeps (hwrote.typed c (.refl c))
    fun n hn htyped => ⟨?_, ?_⟩
  · refine .of_parts h.formed h.mem hvisited (admitted_of_isWrapper hwrapper) htyped fun d hd => ?_
    rcases hparts d hd with rfl | ⟨hd, hvisited⟩
    · exact hwrote.after hn
    · exact (hoperands d hd hvisited).after hn
  · refine .of_foreign ?_ hstring fun hmarked _ => hforeign hmarked fun hnil => absurd hnil hne
    obtain ⟨d, ds, rfl⟩ := exists_cons_of_ne_nil hne
    rfl

theorem writes_sign (hc : c.isVisited) (htoken : token.text ∈ ["+", "-", "~"]) :
    r.Handles root b (r.sign b) (.node i .factor span [.leaf k token, c]) := by
  intro h
  refine writes_around h rfl ⟨rfl, fun h => absurd rfl h⟩ rfl (parts_of_operand hc).1 hc
    (natural_sign (isNode_of_isVisited hc)) fun text _ => ?_
  have hall : ∀ sign ∈ ["+", "-", "~"], sign.toList.any isForeign := by decide
  obtain ⟨char, hchar, hforeign⟩ := any_eq_true.1 (hall _ htoken)
  refine .of_foreign rfl rfl fun _ _ => ⟨char, ?_, hforeign⟩
  rw [String.toList_append]
  exact mem_append_left _ hchar

theorem writes_power (hc : c.isVisited) (hd : d.isVisited) :
    r.Handles root b (r.power b) (.node i .power span [c, .leaf k token, d]) := by
  intro h E j hE hj
  have hfilter : [c, .leaf k token, d].filter isNode = [c, d] := by
    simp [isNode_of_isVisited hc, isNode_of_isVisited hd]
  have hsubtrees : (node i .power span [c, .leaf k token, d]).subtrees = [c, d] := hfilter
  have hparts : (node i .power span [c, .leaf k token, d]).parts = [c, d] := by
    rw [parts_of_isVisited (by simp [hc, hd])]
    exact hfilter
  have hnatural : (node i .power span [c, .leaf k token, d]).natural = c.natural := by
    rw [natural_node, hfilter]
    rfl
  have hmem : ∀ e ∈ [c, d], e ∈ (node i .power span [c, .leaf k token, d]).parts :=
    fun e he => by rwa [hparts]
  unfold power
  rw [hsubtrees]
  refine .bind (h.visit hE hj (hmem c (by simp)) hc id) fun base k₁ hk₁ ⟨hbase, _⟩ => ?_
  refine .bind (h.visit hE hk₁.keeps (hmem d (by simp)) hd id) fun exponent k₂ hk₂ ⟨hexponent, _⟩ => ?_
  have hbase := hbase.after hk₂
  refine h.ends_typeFrom rfl rfl (hmem c (by simp)) hnatural hk₂.keeps (hbase.typed c (.refl c))
    fun n hn htyped => ⟨?_, .of_foreign rfl rfl fun hmarked _ => hmarked.power base exponent⟩
  refine .of_parts h.formed h.mem rfl ⟨rfl, fun h => absurd rfl h⟩ htyped ?_
  rw [hparts]
  exact forall_mem_cons.2 ⟨hbase.after hn, forall_mem_singleton.2 (hexponent.after hn)⟩

/-! ## Names and literals -/

theorem writes_identifier :
    r.Handles root b r.identifier (.node i .identifier span [.leaf k token]) := by
  intro h E j hE hj
  have hfirst : (node i .identifier span [.leaf k token]).firstToken? = some token := rfl
  have hparts : (node i .identifier span [.leaf k token]).parts = [] :=
    parts_eq_nil (forall_mem_singleton.2 rfl)
  unfold identifier
  rw [hfirst]
  dsimp only
  split
  · rename_i type htype
    have hnatural : type = (node i .identifier span [.leaf k token]).natural := by
      rw [natural_node, Rule.natural, hfirst, Option.bind_some, htype]
      rfl
    refine h.noteNatural hj hnatural fun k₁ hk₁ htyped => ?_
    refine .useThen hk₁.keeps fun k₂ hk₂ => ?_
    refine .pure hk₂.keeps ⟨?_, .of_natural_ne ?_⟩
    · refine .of_parts h.formed h.mem rfl ⟨rfl, ?_⟩ (htyped.after hk₂) ?_
      · change (some token).any _
        rw [Option.any_some, htype]
        rfl
      · rw [hparts]
        exact nofun
    · rw [← hnatural]
      have hall : ∀ type ∈ ValueType.symbols, type ≠ .string := by decide
      exact hall type (mem_of_find?_eq_some htype)
  · rename_i htype
    refine hE.fail hj nofun fun hready => ?_
    have hadmitted : ((some token).any fun token => (ValueType.ofSymbol? token.text).isSome) :=
      hready.admitted.2
    rw [Option.any_some, htype] at hadmitted
    cases hadmitted

theorem admitted_literal_iff {setting : Setting} (hrule : token.kind ∈ rule.literalKinds) :
    (node i rule span [.leaf k token]).Admitted setting ↔
      (setting.target.writeLiteral (node i rule span [.leaf k token]).natural token.text).isOk := by
  cases rule
  all_goals first
    | cases hrule
    | exact ⟨fun h => h.2 (cons_ne_nil _ _), fun h => ⟨rfl, fun _ => h⟩⟩

theorem writes_simpleLiteral (hrule : token.kind ∈ rule.literalKinds) :
    r.Handles root b (fun t => r.simpleLiteral t t.natural) (.node i rule span [.leaf k token]) := by
  intro h E j hE hj
  have hfirst : (node i rule span [.leaf k token]).firstToken? = some token := rfl
  have hparts : (node i rule span [.leaf k token]).parts = [] :=
    parts_eq_nil (forall_mem_singleton.2 rfl)
  have hvisited : (node i rule span [.leaf k token]).isVisited := by
    cases rule
    all_goals first | rfl | cases hrule
  refine h.noteNatural hj rfl fun k₁ hk₁ htyped => ?_
  refine .useThen hk₁.keeps fun k₂ hk₂ => ?_
  have hoctal : (node i rule span [.leaf k token]).natural = .octal →
      (node i rule span [.leaf k token]).isOf .octLiteral := by
    intro htype
    rw [natural_node] at htype
    cases rule
    all_goals first | rfl | cases htype | cases hrule
  rw [hfirst]
  refine (hE.literal (fun htype => ⟨_, h.mem, hoctal htype, rfl⟩)
    (fun hready => (admitted_literal_iff hrule).1 hready.admitted) hk₂.keeps).imp fun text n hn hok => ⟨?_, .of_natural_ne ?_⟩
  · refine .of_parts h.formed h.mem hvisited ((admitted_literal_iff hrule).2 hok)
      ((htyped.after hk₂).after hn) ?_
    rw [hparts]
    exact nofun
  · cases rule
    all_goals first | cases hrule | exact nofun

theorem member?_eq_of_kin {a b : ValueType} (h : a.Kin b) :
    a.member? = b.member? ∧ a.isDomain = b.isDomain := by
  rcases h with rfl | ⟨ha, hb⟩
  · exact ⟨rfl, rfl⟩
  · have hnumber : ∀ type : ValueType, type.isNumeric → type.members = [] ∧ type.isDomain = false := by
      intro type h
      cases type <;> first | exact ⟨rfl, rfl⟩ | cases h
    refine ⟨funext fun name => ?_, by rw [(hnumber a ha).2, (hnumber b hb).2]⟩
    rw [ValueType.member?, ValueType.member?, (hnumber a ha).1, (hnumber b hb).1]

theorem ne_string_of_member? {type member : ValueType} {name : String}
    (h : type.member? name = some member) : member ≠ .string := by
  have hmembers : ∀ p ∈ type.members, p.2 ≠ .string := by
    cases type
    case regexFlag => exact nofun
    all_goals decide
  obtain ⟨front, back, heq, -⟩ := lookup_eq_some_iff.1 h
  exact hmembers (name, member) (by rw [heq]; simp)

theorem writes_memberAccess (hc : c.isVisited) :
    r.Handles root b (r.memberAccess b) (.node i .attributeAccess span [c, .leaf k token]) := by
  intro h E j hE hj
  have hfilter : [c, .leaf k token].filter isNode = [c] := by
    simp [isNode_of_isVisited hc]
  have hparts : (node i .attributeAccess span [c, .leaf k token]).parts = [c] := by
    rw [parts_of_isVisited (by simp [hc])]
    exact hfilter
  have hmem : c ∈ (node i .attributeAccess span [c, .leaf k token]).parts := by
    rw [hparts]
    exact mem_singleton_self c
  have htokens : (node i .attributeAccess span [c, .leaf k token]).tokens = [token] := by
    cases c with
    | leaf => cases hc
    | node => rfl
  have hcallee : (node i .attributeAccess span [c, .leaf k token]).calleeType = c.natural := by
    rw [calleeType, subtrees, children, hfilter]
    rfl
  have hnatural : (node i .attributeAccess span [c, .leaf k token]).natural =
      (c.natural.member? token.text).getD .undefined := by
    rw [natural_node, hfilter, Rule.natural, htokens]
    rfl
  have hadmits : (node i .attributeAccess span [c, .leaf k token]).Admitted r.setting ↔
      (c.natural.member? token.text).isSome ∨ c.natural.isDomain = false := by
    constructor
    · intro hadmitted
      have hmembers := hadmitted.2 token (by rw [htokens]; rfl)
      rwa [hcallee] at hmembers
    · refine fun hmembers => ⟨rfl, fun name hname => ?_⟩
      rw [htokens] at hname
      obtain rfl := Option.mem_some_iff.1 hname
      rwa [hcallee]
  refine .bind (h.visit hE hj hmem hc id) fun text k₁ hk₁ hwritten => ?_
  have hwrote := hwritten.1
  refine .bind (.typeOf (Q := fun type _ => type.Kin c.natural) hk₁.keeps (hwrote.typed c (.refl c))
    fun type htype => (hk₁.keeps.fits c (hwrote.written c (.refl c)).1).kin htype)
    fun type k₂ hk₂ hkin => ?_
  obtain ⟨hmember, hdomain⟩ := member?_eq_of_kin hkin
  rw [hmember, hdomain]
  have hfinish : ∀ (n : Marks) (text : String), Marks.After (Coherent r.target root) k₂.notes.mark n →
      n.Typed (.node i .attributeAccess span [c, .leaf k token]) →
      (c.natural.member? token.text).isSome ∨ c.natural.isDomain = false →
      Wrote r.setting root b (.node i .attributeAccess span [c, .leaf k token]) n ∧
        Spelled r.target (.node i .attributeAccess span [c, .leaf k token]) text := by
    intro n text hn htyped hmembers
    refine ⟨.of_parts h.formed h.mem rfl (hadmits.2 hmembers) htyped ?_, .of_natural_ne ?_⟩
    · rw [hparts]
      exact forall_mem_singleton.2 (hwrote.after (hk₂.trans hn))
    · rw [hnatural]
      cases hsome : c.natural.member? token.text with
      | none => decide
      | some member => exact ne_string_of_member? hsome
  split
  · rename_i member hsome
    refine h.noteNatural hk₂.keeps ?_ fun k₃ hk₃ htyped => ?_
    · rw [hnatural, hsome]
      rfl
    · exact .pure hk₃.keeps (hfinish _ _ hk₃ htyped (.inl (by rw [hsome]; rfl)))
  · rename_i hnone
    split
    · rename_i hdomain
      refine hE.failAt hk₂.keeps (by rintro ⟨⟩) fun hready => ?_
      rcases hadmits.1 hready.admitted with h | h
      · rw [hnone] at h
        cases h
      · rw [hdomain] at h
        cases h
    · rename_i hdomain
      refine h.noteNatural hk₂.keeps ?_ fun k₃ hk₃ htyped => ?_
      · rw [hnatural, hnone]
        rfl
      · exact .pure hk₃.keeps (hfinish _ _ hk₃ htyped (.inr (Bool.eq_false_iff.2 hdomain)))

end Renderer

end QueryScribe
