import QueryScribe.Proofs.Compiling
import QueryScribe.Proofs.Statements

/-!
# Nodes that only wrap another

Between a program and the expression that it consists of stand nodes that only wrap another: the
statement, its line, and one node for each level of operators that is not used. `Tree.wrapped` is what
stands below them. It decides everything: a node is written as what it wraps, with the same uses and
the same faults (`exec_render_of_wrapped`), it has the same natural type
and can be written if what it wraps can be (`Writable.of_wrapped`). So a program of one expression compiles
to what is written of this expression (`compile_of_wrapped`).
-/

namespace QueryScribe

open List

open Renderer
open Render (exec exec_bind)

/-- Whether a node of a rule that holds a single node only wraps it. -/
def Rule.wraps (rule : Rule) : Bool := rule.isWrapper || rule = .simpleStmt

/-- What stands below the nodes that only wrap another. -/
def Tree.wrapped : Tree → Tree
  | node id rule span [child] =>
    if child.isNode && rule.wraps then wrapped child else node id rule span [child]
  | t => t

theorem Rule.wraps_iff {rule : Rule} : rule.wraps ↔ rule.isWrapper ∨ rule = .simpleStmt := by
  simp [wraps]

namespace Tree

variable {t root : Tree} {setting : Setting}

theorem wrapped_mem_nodes (ht : t.isNode) : t.wrapped ∈ t.nodes := by
  fun_induction wrapped t with
  | case1 id rule span child h ih =>
    exact mem_nodes_of_mem_children (.head _) (ih (Bool.and_eq_true_iff.1 h).1)
  | case2 => exact self_mem_nodes rfl
  | case3 => exact self_mem_nodes ht

theorem mem_wrapped_nodes {s : Tree} (hs : s ∈ t.nodes) (hrule : s.rule?.any Rule.wraps = false) :
    s ∈ t.wrapped.nodes := by
  fun_induction wrapped t with
  | case1 id rule span child h ih =>
    obtain ⟨-, hwraps⟩ := Bool.and_eq_true_iff.1 h
    rcases mem_nodes_node.1 hs with rfl | ⟨c, hc, hs⟩
    · rw [rule?, Option.any_some, hwraps] at hrule
      cases hrule
    · exact ih (mem_singleton.1 hc ▸ hs)
  | case2 => exact hs
  | case3 => exact hs

theorem natural_wrapped (t : Tree) : t.wrapped.natural = t.natural := by
  fun_induction wrapped t with
  | case1 id rule span child h ih =>
    obtain ⟨hnode, hwraps⟩ := Bool.and_eq_true_iff.1 h
    rw [ih, natural_wrapper (Rule.wraps_iff.1 hwraps) hnode]
  | case2 => rfl
  | case3 => rfl

theorem Formed.isVisited_of_wraps {id : Nat} {rule : Rule} {span : Span} {child : Tree}
    (hroot : root.Formed) (ht : node id rule span [child] ∈ root.nodes) (hnode : child.isNode)
    (hwraps : rule.wraps) : child.isVisited := by
  have hrule : rule.isVisited ∧ rule.isRefused = false := by
    rcases Rule.wraps_iff.1 hwraps with hrule | rfl
    · cases rule
      all_goals first | exact ⟨rfl, rfl⟩ | cases hrule
    · exact ⟨rfl, rfl⟩
  have hform := hroot.form_of_isVisited ht hrule.1
  rcases hform.forall_children hrule.2 child (.head _) hnode with h | ⟨-, hlist⟩
  · exact h
  · -- Only a comparison of several operands, a category or a list may hold a list.
    exfalso
    rcases hlist with hlist | hlist | ⟨-, hlength⟩
    · rcases Rule.wraps_iff.1 hwraps with hrule | rfl
      · cases rule
        all_goals first | cases hlist; done | cases hrule
      · cases hlist
    · rcases Rule.wraps_iff.1 hwraps with hrule | rfl
      · cases rule
        all_goals first | cases hlist; done | cases hrule
      · cases hlist
    · exact hlength rfl

theorem Formed.isVisited_wrapped (hroot : root.Formed) (ht : t ∈ root.nodes) (hvisited : t.isVisited) :
    t.wrapped.isVisited := by
  fun_induction wrapped t with
  | case1 id rule span child h ih =>
    obtain ⟨hnode, hwraps⟩ := Bool.and_eq_true_iff.1 h
    exact ih (mem_nodes_trans ht (mem_nodes_of_mem_children (.head _) (self_mem_nodes hnode)))
      (hroot.isVisited_of_wraps ht hnode hwraps)
  | case2 => exact hvisited
  | case3 => exact hvisited

theorem Writable.of_wrapped {top : Tree} (h : Writable setting top False t.wrapped)
    (hroot : root.Formed) (ht : t ∈ root.nodes) : Writable setting top False t := by
  fun_induction wrapped t with
  | case1 id rule span child hwrapped ih =>
    obtain ⟨hnode, hwraps⟩ := Bool.and_eq_true_iff.1 hwrapped
    have hchild := mem_nodes_trans ht
      (mem_nodes_of_mem_children (.head _) (self_mem_nodes hnode))
    have hparts : (node id rule span [child]).parts = [child] :=
      (parts_eq_children (forall_mem_singleton.2 (hroot.isVisited_of_wraps ht hnode hwraps))).1
    refine .intro (fun _ => admitted_of_isWrapper (Rule.wraps_iff.1 hwraps)) fun c hc _ => ?_
    rw [hparts, mem_singleton] at hc
    exact hc ▸ ih h hchild
  | case2 => exact h
  | case3 => exact h

end Tree

/-! ## Texts -/

section Texts

variable {target : Target} {input : Source} {b : Bool} {t : Tree} {j k : Journal} {text : String}

theorem exec_inherit {c : Tree} (hc : Marks.Typed k.notes.mark c) (t : Tree) (text : String) :
    ∃ l, exec (do Render.setType t (← Render.typeOf c); return text) k = (.ok text, l) ∧
      l.notes.usage = k.notes.usage ∧ Marks.Typed l.notes.mark t := by
  obtain ⟨type, htype⟩ := Option.isSome_iff_exists.1 hc
  refine ⟨{ k with notes := k.notes.setType t type }, ?_, rfl, ?_⟩
  · rw [exec_bind, Render.exec_typeOf, Notes.type?_eq_of_mark htype]
    rfl
  · rw [Marks.Typed, Notes.mark_setType, if_pos rfl, Mark.withType]
    cases (k.notes.mark t.id).type <;> rfl

variable {id : Nat} {rule : Rule} {span : Span} {child : Tree}

/-- A wrapping has the node in it written, and then takes its type. -/
theorem render_of_wraps (hnode : child.isNode) (hwraps : rule.wraps) (hend : target.endOfStatement = "") :
    render target input b (.node id rule span [child]) = (do
      let text ← render target input b child
      Render.setType (.node id rule span [child]) (← Render.typeOf child)
      return text) := by
  rw [render_eq_step, step]
  rcases Rule.wraps_iff.1 hwraps with hrule | rfl
  · rw [ofRule_of_isWrapper hrule hnode, collapse]
    dsimp only [Tree.children]
    rw [visit_below b (.head _)]
  · have hsubtrees : (Tree.node id .simpleStmt span [child]).subtrees = [child] :=
      filter_eq_self.2 (forall_mem_singleton.2 hnode)
    change (below target input _).statements b _ = _
    rw [statements, hsubtrees, below, target_within, hend]
    dsimp only [Tree.children]
    have hvisit : (below target input (.node id .simpleStmt span [child])).visit b child =
        render target input b child := visit_below b (.head _)
    rw [below] at hvisit
    simp only [mapM_cons, mapM_nil, hvisit, bind_assoc, pure_bind, String.append_empty,
      String.intercalate_singleton]

theorem exec_render_of_wrapped (hend : target.endOfStatement = "") {result : Except Fault String}
    (h : exec (render target input b t.wrapped) j = (result, k))
    (htyped : result.isOk → Marks.Typed k.notes.mark t.wrapped) :
    ∃ l, exec (render target input b t) j = (result, l) ∧ l.notes.usage = k.notes.usage ∧
      (result.isOk → Marks.Typed l.notes.mark t) := by
  fun_induction Tree.wrapped t with
  | case1 id rule span child hwrapped ih =>
    obtain ⟨hnode, hwraps⟩ := Bool.and_eq_true_iff.1 hwrapped
    obtain ⟨l, hexec, husage, htyped'⟩ := ih h htyped
    rw [render_of_wraps hnode hwraps hend, exec_bind, hexec]
    cases result with
    | error fault => exact ⟨l, rfl, husage, nofun⟩
    | ok text =>
      obtain ⟨m, hinherit, husage', htyped''⟩ :=
        exec_inherit (htyped' rfl) (.node id rule span [child]) text
      exact ⟨m, hinherit, husage'.trans husage, fun _ => htyped''⟩
  | case2 => exact ⟨k, h, rfl, htyped⟩
  | case3 => exact ⟨k, h, rfl, htyped⟩

end Texts

/-! ## Programs -/

theorem eq_singleton_of_mem {α : Type} {l : List α} {a : α} (hlength : l.length = 1) (h : a ∈ l) :
    l = [a] := by
  obtain ⟨c, rfl⟩ := length_eq_one_iff.1 hlength
  rw [mem_singleton.1 h]

section Programs

variable {target : Target} {options : Options} {source : String} {root c : Tree} {k : Journal}

theorem exists_of_map_wrapped (hparse : parse source = .ok root)
    (hchildren : root.children.map Tree.wrapped = [c]) : ∃ s, s.wrapped = c ∧ root.subtrees = [s] ∧
      s ∈ root.nodes ∧ s.isVisited := by
  obtain ⟨s, hs, hwrapped⟩ := map_eq_singleton_iff.1 hchildren
  have hroot := Tree.formed_of_parse hparse
  have hrule := rule?_of_parse hparse
  obtain ⟨id, span, cs, rfl⟩ := Tree.exists_of_rule? hrule
  obtain rfl : cs = [s] := hs
  have hvisited : s.isVisited :=
    (hroot.form (Tree.self_mem_nodes rfl) (.inl rfl)).hasForm s (.head _)
  have hnode := Tree.isNode_of_isVisited hvisited
  exact ⟨s, hwrapped, filter_eq_self.2 (forall_mem_singleton.2 hnode),
    Tree.mem_nodes_of_mem_children (.head _) (Tree.self_mem_nodes hnode), hvisited⟩

/-- What is known of a program that is a call if it compiles. Nothing that it is part of is a document,
so no query passes over it. -/
theorem callFits_of_compile (htarget : target ∈ Target.all) (hparse : parse source = .ok root)
    (hchildren : root.children.map Tree.wrapped = [c]) (hcall : c.isOf .functionCall) {output : Output}
    (h : compile target options source = .ok output) :
    CallFits ⟨target, options.names⟩ c.calleeType c.callArguments := by
  obtain ⟨s, rfl, hsubtrees, hs, hvisited⟩ := exists_of_map_wrapped hparse hchildren
  have hrule : s.wrapped.rule? = some .functionCall := beq_iff_eq.1 hcall
  have hmem := Tree.mem_nodes_trans hs (Tree.wrapped_mem_nodes (Tree.isNode_of_isVisited hvisited))
  have hadmitted := (admitted_or_of_compile htarget h hparse hmem
    (by rw [Tree.isContainer, hrule]; rfl) (by rw [hrule]; rintro ⟨⟩)).resolve_right ?_
  · have hfits := hadmitted.2
    rwa [hrule] at hfits
  · rintro ⟨-, ⟨hpass, -⟩ | ⟨p, hover, hp⟩⟩
    · generalize s.wrapped = call at hrule hpass
      cases call with
      | leaf => cases hrule
      | node =>
        cases Option.some.inj hrule
        cases (Tree.exists_child_of_isPassThrough hpass).2
    · obtain ⟨d, hd, hof, hcollects⟩ := Shape.exists_document_of_passedOver
        (Tree.formed_of_parse hparse) hover
      have hdocument : d ∈ s.wrapped.nodes := by
        refine Tree.mem_wrapped_nodes ?_ (by rw [beq_iff_eq.1 hof]; rfl)
        have hprogram := rule?_of_parse hparse
        cases root with
        | leaf => cases hprogram
        | node =>
          rcases Tree.mem_nodes_node.1 hd with rfl | ⟨c, hc, hdc⟩
          · rw [Tree.isOf, hprogram] at hof
            cases hof
          · have hnode : c.isNode := by
              cases c with
              | leaf => cases hdc
              | node => rfl
            have hsubtree : c ∈ [s] := hsubtrees ▸ mem_filter.2 ⟨hc, hnode⟩
            exact mem_singleton.1 hsubtree ▸ hdc
      have hlt := hcollects.mem_nodes.2
      have hle := Tree.height_le_of_mem_nodes hp
      have hle' := Tree.height_le_of_mem_nodes hdocument
      omega

theorem Target.ends_of_mem (htarget : target ∈ Target.all) :
    target.endOfStatement = "" ∧ target.endOfProgram = "" := by
  simp only [Target.all, mem_cons, not_mem_nil, or_false] at htarget
  rcases htarget with rfl | rfl
  · exact ⟨rfl, rfl⟩
  · exact ⟨rfl, rfl⟩

variable (htarget : target ∈ Target.all) (hparse : parse source = .ok root)
  (hlength : options.exceeded source.length = none)
  (hchildren : root.children.map Tree.wrapped = [c])

include htarget hparse hchildren

theorem alone_of_wrapped {input : Source} {b : Bool} {result : Except Fault String}
    (h : exec (render target input b c) {} = (result, k))
    (htyped : result.isOk → Marks.Typed k.notes.mark c) :
    ∃ l, alone target input b root = (result, l) ∧ l.notes.usage = k.notes.usage := by
  obtain ⟨hend, hlast⟩ := Target.ends_of_mem htarget
  obtain ⟨s, rfl, hsubtrees, -, -⟩ := exists_of_map_wrapped hparse hchildren
  obtain ⟨l, hexec, husage, -⟩ := exec_render_of_wrapped hend h htyped
  rw [alone_program target _ b (rule?_of_parse hparse), hsubtrees, mapM_cons, mapM_nil,
    exec_bind, hexec]
  cases result with
  | error fault => exact ⟨l, rfl, husage⟩
  | ok text =>
    change ∃ m, (Except.ok ("\n".intercalate [text] ++ target.endOfProgram),
      { l with notes := l.notes.setType root .undefined }) = _ ∧ _
    rw [String.intercalate_singleton, hlast, String.append_empty]
    exact ⟨_, rfl, husage⟩

include hlength

theorem compile_of_wrapped {result : Except Fault String}
    (h : exec (render target (options.source source) options.idiomatic c) {} = (result, k))
    (htyped : result.isOk → Marks.Typed k.notes.mark c) :
    compile target options source =
      result.map fun text => ⟨trimmed text, k.notes.usage.render target.imports⟩ := by
  obtain ⟨l, halone, husage⟩ := alone_of_wrapped htarget hparse hchildren h htyped
  rw [compile_of_parse hlength hparse, ← husage]
  rw [alone] at halone
  rw [halone]

theorem compile_of_ends {I : Marks → Prop} {E : Fault → Prop} {Q : String → Prop} {m : Render String}
    {j : Journal} (hexec : exec (render target (options.source source) options.idiomatic c) {} = exec m j)
    (h : Render.Ends I E m j fun text n => n.Typed c ∧ Q text) :
    (∃ text imports, Q text ∧ compile target options source = .ok ⟨trimmed text, imports⟩) ∨
      ∃ fault, E fault ∧ compile target options source = .error fault := by
  obtain ⟨-, hends, -⟩ := h
  rcases hm : exec m j with ⟨fault | text, k⟩
  all_goals rw [hm] at hexec hends
  · exact .inr ⟨fault, hends, compile_of_wrapped htarget hparse hlength hchildren hexec nofun⟩
  · exact .inl ⟨text, _, hends.2,
      compile_of_wrapped htarget hparse hlength hchildren hexec fun _ => hends.1⟩

end Programs

end QueryScribe
