import QueryScribe.Proofs.Form

/-!
# The parts of a node

Lists of arguments, elements and entries are nodes of their own, but nothing is written of them: a
call is written from its arguments, a document from its keys and values. The parts of a node are the
nodes right below it with these lists left out. Every node below another is in one of its parts or
only lists others (`exists_part_of_mem_nodes`), and a node is a part of one node only
(`Distinct.eq_of_mem_parts`).

The spine of a node leads down through the nodes that it is a mere wrapping or a sign of. Where a
number is written as another type, the nodes of its spine are.
-/

namespace QueryScribe

open List

namespace Tree

/-- Whether a node only lists others. -/
def isContainer (t : Tree) : Bool := t.rule?.any Rule.isContainer

mutual

/-- The nodes right below a node, with lists of nodes left out. -/
def parts : Tree → List Tree
  | leaf _ _ => []
  | node _ _ _ children => partsIn children

/-- Nodes and, for those that only list others, their parts. -/
def partsIn : List Tree → List Tree
  | [] => []
  | t :: ts => (if t.isContainer then parts t else if t.isNode then [t] else []) ++ partsIn ts

end

/-! ## Parts and nodes -/

variable {c d s t root : Tree}

theorem mem_partsIn {ts : List Tree} : c ∈ partsIn ts ↔
    ∃ d ∈ ts, if d.isContainer then c ∈ d.parts else d.isNode ∧ c = d := by
  induction ts with
  | nil => simp [partsIn]
  | cons d ts ih =>
    have hd : (c ∈ if d.isContainer then parts d else if d.isNode then [d] else []) ↔
        if d.isContainer then c ∈ d.parts else d.isNode ∧ c = d := by
      split
      · rfl
      · split <;> simp [*]
    rw [partsIn, mem_append, ih, hd, exists_mem_cons_iff]

theorem mem_parts : c ∈ t.parts ↔
    ∃ d ∈ t.children, if d.isContainer then c ∈ d.parts else d.isNode ∧ c = d := by
  cases t with
  | leaf => simp [parts, children]
  | node => exact mem_partsIn

theorem partsIn_eq_filter {ts : List Tree} (h : ∀ d ∈ ts, d.isContainer = false) :
    partsIn ts = ts.filter isNode := by
  induction ts with
  | nil => rfl
  | cons d ts ih =>
    rw [partsIn, h d (.head _), ih fun e he => h e (mem_cons_of_mem d he),
      filter_cons]
    cases d.isNode <;> rfl

theorem parts_eq_subtrees (h : ∀ d ∈ t.children, d.isContainer = false) : t.parts = t.subtrees := by
  cases t with
  | leaf => rfl
  | node => exact partsIn_eq_filter h

theorem isContainer_of_mem_parts (h : c ∈ t.parts) : c.isContainer = false := by
  induction t using induction with
  | leaf => cases h
  | node id rule span cs ih =>
    obtain ⟨d, hd, h⟩ := mem_parts.1 h
    split at h
    · exact ih d hd h
    · rename_i hcontainer
      exact h.2 ▸ Bool.eq_false_iff.2 hcontainer

theorem exists_child_of_mem_parts (h : c ∈ t.parts) : ∃ d ∈ t.children, c ∈ d.nodes := by
  induction t using induction with
  | leaf => cases h
  | node id rule span cs ih =>
    obtain ⟨d, hd, h⟩ := mem_parts.1 h
    refine ⟨d, hd, ?_⟩
    split at h
    · obtain ⟨e, he, hc⟩ := ih d hd h
      exact mem_nodes_of_mem_children he hc
    · obtain ⟨hnode, rfl⟩ := h
      exact self_mem_nodes hnode

theorem mem_nodes_of_mem_parts (h : c ∈ t.parts) : c ∈ t.nodes := by
  obtain ⟨d, hd, hc⟩ := exists_child_of_mem_parts h
  exact mem_nodes_of_mem_children hd hc

theorem height_lt_of_mem_parts (h : c ∈ t.parts) : c.height < t.height := by
  obtain ⟨d, hd, hc⟩ := exists_child_of_mem_parts h
  exact height_lt_of_mem_nodes_of_mem_children hd hc

theorem height_le_of_mem_nodes (h : s ∈ t.nodes) : s.height ≤ t.height := by
  cases t with
  | leaf => cases h
  | node id rule span cs =>
    rcases mem_nodes_node.1 h with rfl | ⟨c, hc, h⟩
    · rfl
    · exact (height_lt_of_mem_nodes_of_mem_children (t := .node id rule span cs) hc h).le

/-- A node below another is in one of its parts, or only lists others. -/
theorem exists_part_of_mem_nodes (h : s ∈ t.nodes) :
    s = t ∨ s.isContainer ∨ ∃ c ∈ t.parts, s ∈ c.nodes := by
  induction t using induction with
  | leaf => cases h
  | node id rule span cs ih =>
    rcases mem_nodes_node.1 h with rfl | ⟨d, hd, h⟩
    · exact .inl rfl
    refine .inr ?_
    by_cases hcontainer : d.isContainer
    · rcases ih d hd h with rfl | hs | ⟨c, hc, hs⟩
      · exact .inl hcontainer
      · exact .inl hs
      · exact .inr ⟨c, mem_parts.2 ⟨d, hd, by rwa [if_pos hcontainer]⟩, hs⟩
    · have hnode : d.isNode := by
        cases d with
        | leaf => cases h
        | node => rfl
      exact .inr ⟨d, mem_parts.2 ⟨d, hd, by rw [if_neg hcontainer]; exact ⟨hnode, rfl⟩⟩, h⟩

/-! ## Nodes that share a number -/

theorem Distinct.mem_nodes_or_mem_nodes (hroot : root.Distinct) (hs : s ∈ root.nodes)
    (ht : t ∈ root.nodes) {i : Nat} (his : i ∈ s.region) (hit : i ∈ t.region) :
    s ∈ t.nodes ∨ t ∈ s.nodes := by
  induction root using induction with
  | leaf => cases hs
  | node id rule span cs ih =>
    rcases mem_nodes_node.1 hs with rfl | ⟨c, hc, hs'⟩
    · exact .inr ht
    rcases mem_nodes_node.1 ht with rfl | ⟨d, hd, ht'⟩
    · exact .inl hs
    obtain rfl := hroot.eq_of_mem_region hc hd (region_subset_of_mem_nodes hs' his)
      (region_subset_of_mem_nodes ht' hit)
    exact ih c hc (hroot.of_mem_children hc) hs' ht'

theorem Distinct.eq_of_mem_nodes_of_mem_parts (ht : t.Distinct) (hc : c ∈ t.parts)
    (hd : d ∈ t.parts) (h : c ∈ d.nodes) : c = d := by
  induction t using induction with
  | leaf => cases hc
  | node id rule span cs ih =>
    have hid : c.id ∈ d.region := region_subset_of_mem_nodes h c.id_mem_region
    obtain ⟨e, he, hc⟩ := mem_parts.1 hc
    obtain ⟨f, hf, hd⟩ := mem_parts.1 hd
    have hce : c.id ∈ e.region := by
      split at hc
      · exact region_subset_of_mem_nodes (mem_nodes_of_mem_parts hc) c.id_mem_region
      · exact hc.2 ▸ c.id_mem_region
    have hcf : c.id ∈ f.region := by
      split at hd
      · exact region_subset_of_mem_nodes (mem_nodes_of_mem_parts hd) hid
      · exact hd.2 ▸ hid
    obtain rfl := ht.eq_of_mem_region he hf hce hcf
    split at hc
    · rename_i hcontainer
      rw [if_pos hcontainer] at hd
      exact ih e he (ht.of_mem_children he) hc hd
    · rename_i hcontainer
      rw [if_neg hcontainer] at hd
      rw [hc.2, hd.2]

theorem Distinct.eq_of_mem_parts (hroot : root.Distinct) (hs : s ∈ root.nodes)
    (ht : t ∈ root.nodes) (hscontainer : s.isContainer = false) (htcontainer : t.isContainer = false)
    (hcs : c ∈ s.parts) (hct : c ∈ t.parts) : s = t := by
  -- The lower of two nodes would be in a part of the upper one, and this part could only be `c`.
  have hbelow : ∀ {s t : Tree}, t ∈ root.nodes → s.isContainer = false → c ∈ s.parts →
      c ∈ t.parts → s ∈ t.nodes → s = t := by
    intro s t ht hcontainer hcs hct hst
    rcases exists_part_of_mem_nodes hst with rfl | hs | ⟨d, hd, hsd⟩
    · rfl
    · rw [hcontainer] at hs
      cases hs
    · obtain rfl := (Distinct.of_mem_nodes root hroot ht).eq_of_mem_nodes_of_mem_parts hct hd
        (mem_nodes_trans hsd (mem_nodes_of_mem_parts hcs))
      exact absurd (height_lt_of_mem_parts hcs) (Nat.not_lt.2 (height_le_of_mem_nodes hsd))
  have hregion : ∀ {u : Tree}, c ∈ u.parts → c.id ∈ u.region := fun h =>
    region_subset_of_mem_nodes (mem_nodes_of_mem_parts h) c.id_mem_region
  rcases hroot.mem_nodes_or_mem_nodes hs ht (hregion hcs) (hregion hct) with h | h
  · exact hbelow ht hscontainer hcs hct h
  · exact (hbelow hs htcontainer hct hcs h).symm

/-! ## Trees that were read -/

/-- A tree as reading gives it: no two nodes share a number, and those whose form matters are of the
forms of their rules. -/
structure Formed (root : Tree) : Prop where
  distinct : root.Distinct
  form : ∀ {id : Nat} {rule : Rule} {span : Span} {cs : List Tree},
    node id rule span cs ∈ root.nodes → rule.isFormed ∨ rule.isRefused → Form rule cs

theorem formed_of_parse {source : String} (h : parse source = .ok root) : root.Formed where
  distinct := distinct_of_parse h
  form hmem hrule := form_of_parse h hmem hrule

theorem Formed.of_mem_nodes {t : Tree} (h : root.Formed) (ht : t ∈ root.nodes) : t.Formed where
  distinct := Distinct.of_mem_nodes root h.distinct ht
  form hmem := h.form (mem_nodes_trans ht hmem)

/-- Whether a node is read but not written. -/
def isRefused (t : Tree) : Bool := t.rule?.any Rule.isRefused

theorem isContainer_of_isVisited (h : t.isVisited) : t.isContainer = false := by
  cases t with
  | leaf => cases h
  | node id rule span cs =>
    change rule.isVisited at h
    change rule.isContainer = false
    cases rule
    all_goals first | rfl | cases h

theorem isNode_of_isVisited (h : t.isVisited) : t.isNode := by
  cases t with
  | leaf => cases h
  | node => rfl

theorem exists_of_rule? {rule : Rule} (h : t.rule? = some rule) :
    ∃ id span cs, t = node id rule span cs := by
  cases t with
  | leaf => cases h
  | node id r span cs => exact ⟨id, span, cs, by rw [Option.some.inj h]⟩

theorem exists_of_isOf {rule : Rule} (h : t.isOf rule) : ∃ id span cs, t = node id rule span cs :=
  exists_of_rule? (beq_iff_eq.1 h)

theorem isNode_of_rule? {rule : Rule} (h : t.rule? = some rule) : t.isNode := by
  obtain ⟨_, _, _, rfl⟩ := exists_of_rule? h
  rfl

theorem isVisited_of_rule? {rule : Rule} (h : t.rule? = some rule) (hrule : rule.isVisited) :
    t.isVisited := by
  cases t with
  | leaf => cases h
  | node =>
    cases h
    exact hrule

end Tree

theorem Alternates.forall_mem {α : Type} {A B : α → Prop} {l : List α} (h : Alternates A B l) :
    ∀ a ∈ l, A a ∨ B a := by
  induction h with
  | nil => exact fun _ ha => nomatch ha
  | cons ha hb _ ih =>
    exact forall_mem_cons.2 ⟨.inl ha, forall_mem_cons.2 ⟨.inr hb, ih⟩⟩

/-- Whether a node of a rule with some children may have lists among them. -/
def Rule.mayList (rule : Rule) (cs : List Tree) : Prop :=
  rule.isCategory ∨ rule.isContainer ∨ rule = .comparison ∧ cs.length ≠ 1

/-- The inner nodes of a form stand where one is written, or only list others where this may be. -/
theorem Form.forall_children {rule : Rule} {cs : List Tree} (h : Form rule cs)
    (hrule : rule.isRefused = false) :
    ∀ c ∈ cs, c.isNode → c.isVisited ∨ c.isContainer ∧ rule.mayList cs := by
  have hvisited : ∀ {c : Tree}, c.isVisited → c.isNode →
      c.isVisited ∨ c.isContainer ∧ rule.mayList cs := fun h _ => .inl h
  have hlist : ∀ {c : Tree} {r : Rule}, c.rule? = some r → r.isContainer → rule.mayList cs →
      c.isNode → c.isVisited ∨ c.isContainer ∧ rule.mayList cs := by
    intro c r hc hr hmay _
    cases c with
    | leaf => cases hc
    | node => cases hc; exact .inr ⟨hr, hmay⟩
  have hleaf : ∀ {c : Tree}, c.isNode = false → c.isNode →
      c.isVisited ∨ c.isContainer ∧ rule.mayList cs := fun h h' => absurd h' (Bool.eq_false_iff.1 h)
  cases h with
  | refused h => rw [hrule] at h; cases h
  | program h | items _ h => exact fun c hc => hvisited (h c hc)
  | line h | tuple h | logical _ h => exact fun c hc => hvisited (h c hc)
  | wrapper _ hc | call hc => exact forall_mem_singleton.2 (hvisited hc)
  | qualified _ hc hd hr =>
    refine forall_mem_cons.2 ⟨hvisited hc, forall_mem_singleton.2 (hvisited (Tree.isVisited_of_rule? hd ?_))⟩
    simp [Rule.isVisited, hr]
  | literal | name => exact forall_mem_singleton.2 (hleaf rfl)
  | string h | operator h => exact fun c hc => hleaf (h c hc)
  | empty => exact fun _ hc => nomatch hc
  | collection hlisting hc =>
    refine forall_mem_singleton.2 ?_
    cases rule
    case setLiteral | arrayLiteral | objectLiteral =>
      cases hlisting
      exact hlist hc rfl (.inl rfl)
    all_goals cases hlisting
  | negation hc | sign _ hc =>
    exact forall_mem_cons.2 ⟨hleaf rfl, forall_mem_singleton.2 (hvisited hc)⟩
  | comparison hc halternates hne =>
    refine forall_mem_cons.2 ⟨hvisited hc, fun d hd => ?_⟩
    rcases halternates.forall_mem d hd with hd | hd
    · exact hlist hd rfl (.inr (.inr ⟨rfl, by simpa using hne⟩))
    · exact hvisited hd
  | operation _ hc halternates =>
    refine forall_mem_cons.2 ⟨hvisited hc, fun d hd => ?_⟩
    exact (halternates.forall_mem d hd).elim hleaf hvisited
  | power hc hd =>
    exact forall_mem_cons.2 ⟨hvisited hc, forall_mem_cons.2
      ⟨hleaf rfl, forall_mem_singleton.2 (hvisited hd)⟩⟩
  | callWith hc hargs =>
    exact forall_mem_cons.2 ⟨hvisited hc, forall_mem_singleton.2
      (hlist hargs rfl (.inl rfl))⟩
  | member hc => exact forall_mem_cons.2 ⟨hvisited hc, forall_mem_singleton.2 (hleaf rfl)⟩
  | entries h => exact fun c hc => hlist (h c hc) rfl (.inr (.inl rfl))
  | elements h => exact fun c hc => hvisited (Tree.isVisited_of_rule? (h c hc) rfl)
  | comprehension hc hd =>
    refine forall_mem_cons.2 ⟨?_, forall_mem_singleton.2
      (hvisited (Tree.isVisited_of_rule? hd rfl))⟩
    exact hc.elim (hlist · rfl (.inr (.inl rfl))) fun hc =>
      hvisited (Tree.isVisited_of_rule? hc rfl)
  | pair hkey hvalue =>
    exact forall_mem_cons.2 ⟨hvisited hkey, forall_mem_singleton.2 (hvisited hvalue)⟩

theorem Rule.isFormed_or_isRefused {r : Rule} (h : r.isVisited ∨ r.isContainer ∨ r = .fileInput) :
    r.isFormed ∨ r.isRefused := by
  cases hr : r.isRefused with
  | true => exact .inr rfl
  | false => exact .inl (by simpa [isFormed, hr, or_assoc] using h)

theorem Rule.isRefused_of_isContainer {r : Rule} (h : r.isContainer) : r.isRefused = false := by
  cases r
  all_goals first | rfl | cases h

namespace Tree

variable {c s t root : Tree} {id : Nat} {rule : Rule} {span : Span} {cs : List Tree}

theorem Formed.form_of_isVisited (hroot : root.Formed) (ht : node id rule span cs ∈ root.nodes)
    (hvisited : (node id rule span cs).isVisited) : Form rule cs :=
  hroot.form ht (Rule.isFormed_or_isRefused (.inl hvisited))

theorem Formed.isVisited_of_mem_parts (hroot : root.Formed) (ht : t ∈ root.nodes)
    (hrule : ∀ r ∈ t.rule?, r.isVisited ∨ r.isContainer ∨ r = .fileInput)
    (hrefused : t.isRefused = false) (hc : c ∈ t.parts) : c.isVisited := by
  induction t using induction with
  | leaf => cases hc
  | node id rule span cs ih =>
    have hform : Form rule cs := hroot.form ht (Rule.isFormed_or_isRefused (hrule rule rfl))
    obtain ⟨d, hd, hc⟩ := mem_parts.1 hc
    split at hc
    · rename_i hcontainer
      cases d with
      | leaf => cases hcontainer
      | node i r sp ds =>
        refine ih _ hd (mem_nodes_trans ht (mem_nodes_of_mem_children hd (self_mem_nodes rfl))) ?_
          (Rule.isRefused_of_isContainer hcontainer) hc
        rintro r' ⟨⟩
        exact .inr (.inl hcontainer)
    · rename_i hcontainer
      obtain ⟨hnode, rfl⟩ := hc
      exact (hform.forall_children hrefused c hd hnode).resolve_right fun h => hcontainer h.1

/-! ## The spine -/

/-- The nodes that a node passes through to, is a sign of, or joins as a union. -/
def operands (t : Tree) : List Tree :=
  if t.isPassThrough || t.isOf .factor || t.isOf .expr then t.subtrees else []

/-- The nodes on the spine of a node. -/
inductive Spine : Tree → Tree → Prop
  | refl (t : Tree) : Spine t t
  | step {t c s : Tree} : c ∈ t.operands → Spine c s → Spine t s

theorem Spine.trans {u : Tree} (h : Spine t s) (h' : Spine s u) : Spine t u := by
  induction h with
  | refl => exact h'
  | step hc _ ih => exact .step hc (ih h')

theorem exists_child_of_isPassThrough (h : (node id rule span cs).isPassThrough) :
    (∃ child, cs = [child]) ∧ rule.isCategory = false := by
  unfold isPassThrough at h
  split at h
  · rename_i heq
    cases heq
    exact ⟨⟨_, rfl⟩, by simpa using (Bool.and_eq_true_iff.1 h).2⟩
  · cases h

theorem rule_of_isOf {r : Rule} (h : (node id rule span cs).isOf r) : rule = r :=
  Option.some.inj (beq_iff_eq.1 h)

theorem mem_operands_of_isPassThrough (h : t.isPassThrough) (hc : c ∈ t.children) :
    c ∈ t.operands := by
  have hnode : c.isNode := by
    unfold isPassThrough at h
    split at h
    · rw [mem_singleton.1 hc]
      exact (Bool.and_eq_true_iff.1 h).1
    · cases h
  rw [operands, if_pos (by simp [h])]
  exact mem_filter.2 ⟨hc, hnode⟩

theorem spine_core (t : Tree) : Spine t t.core := by
  unfold core
  fun_induction skipUntil (fun _ => false) t with
  | case1 id rule span child t h ih =>
    refine .step (mem_operands_of_isPassThrough ?_ (mem_singleton_self child)) ih
    exact (Bool.and_eq_true_iff.1 h).1
  | case2 => exact .refl _
  | case3 => exact .refl _

/-- The operands of a node that is written stand where one is written. -/
theorem Formed.isVisited_of_mem_operands (hroot : root.Formed) (ht : t ∈ root.nodes)
    (hvisited : t.isVisited) (hrefused : t.isRefused = false) (hc : c ∈ t.operands) :
    c.isVisited := by
  unfold operands at hc
  split at hc
  · rename_i hkind
    obtain ⟨hmem, hnode⟩ := mem_filter.1 hc
    cases t with
    | leaf => cases hmem
    | node id rule span cs =>
      refine ((hroot.form_of_isVisited ht hvisited).forall_children hrefused c hmem
        hnode).resolve_right fun ⟨_, hmay⟩ => ?_
      -- Neither a pass-through node nor a sign nor a union has lists among its children.
      rcases hmay with hcategory | hcontainer | ⟨rfl, hlength⟩
      · rcases Bool.or_eq_true_iff.1 hkind with hkind | hkind
        · rcases Bool.or_eq_true_iff.1 hkind with hkind | hkind
          · rw [(exists_child_of_isPassThrough hkind).2] at hcategory
            cases hcategory
          · rw [rule_of_isOf hkind] at hcategory
            cases hcategory
        · rw [rule_of_isOf hkind] at hcategory
          cases hcategory
      · exact Bool.eq_false_iff.1 (isContainer_of_isVisited hvisited) hcontainer
      · simp only [isOf, rule?] at hkind
        obtain ⟨child, rfl⟩ := (exists_child_of_isPassThrough (by simpa using hkind)).1
        exact hlength rfl
  · cases hc

theorem Formed.mem_parts_of_mem_operands (hroot : root.Formed) (ht : t ∈ root.nodes)
    (hvisited : t.isVisited) (hrefused : t.isRefused = false) (hc : c ∈ t.operands) :
    c ∈ t.parts := by
  have hcvisited := hroot.isVisited_of_mem_operands ht hvisited hrefused hc
  unfold operands at hc
  split at hc
  · refine mem_parts.2 ⟨c, mem_children_of_mem_subtrees hc, ?_⟩
    rw [isContainer_of_isVisited hcvisited]
    exact ⟨isNode_of_isVisited hcvisited, rfl⟩
  · cases hc

end Tree

end QueryScribe
