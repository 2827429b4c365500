import QueryScribe.Proofs.Natural
import QueryScribe.Proofs.Outcome

/-!
# Coherent notes

While a tree is written its marks stay coherent: a node has no mark, or its natural type, or it is a
number that is written as another type and keeps its natural type as its own (`Tree.Fits`). Nodes are
written as other types only where something asks for it, and this is never undone: a node that got
its type from a part has it before the part is written as another type (`Coherent.parts`), and an
argument of a call is only ever written as the type that its slot asks for (`Coherent.slots`).

Noting a type keeps marks coherent if it is the natural one (`Coherent.setType`), and so does a cast
where one is asked for (`Coherent.cast`).
-/

namespace QueryScribe

/-- A literal below some signs can be written as a type: it has a value, which the type can hold and
the target can write. What is no literal keeps its own form. -/
def Signed.CastsTo (target : Target) (type : ValueType) : Tree → Signed → Prop
  | t, .literal _ _ text => ∃ value written, Literal.number text t.natural = .ok value ∧
      Literal.canonical value type = .ok written ∧ (target.writeLiteral type written).isOk
  | _, .signed _ _ operand view => view.CastsTo target type operand
  | _, .other _ => True

namespace Tree

/-- A node can be written as a type. -/
def CastsTo (target : Target) (type : ValueType) (t : Tree) : Prop :=
  (Signed.ofTree t).CastsTo target type t

/-- The natural type of what is called. -/
def calleeType (t : Tree) : ValueType := (t.subtrees.map natural).headD .undefined

/-- The arguments of a call with their slots. -/
def slots (t : Tree) : List (Slot × Tree) := t.calleeType.parameters.zip t.callArguments

/-- The marks that a node may have. -/
def Fits (t : Tree) (m : Mark) : Prop :=
  m = ⟨none, none⟩ ∨ m = ⟨some t.natural, none⟩ ∨
    t.natural.isNumeric ∧ ∃ type, type.isNumeric ∧ m = ⟨some type, some t.natural⟩

/-- Whether a node lists what its parts are, whatever their types. -/
def isListing (t : Tree) : Bool := t.isOf .arrayLiteral || t.isOf .objectLiteral

end Tree

/-- Types that are the same, or both numeric. -/
def ValueType.Kin (a b : ValueType) : Prop := a = b ∨ a.isNumeric ∧ b.isNumeric

namespace Tree.Fits

variable {t : Tree} {m : Mark} {type : ValueType}

theorem kin (h : t.Fits m) (hm : m.type = some type) : type.Kin t.natural := by
  rcases h with rfl | rfl | ⟨hnatural, type', htype, rfl⟩
  · cases hm
  · exact .inl (Option.some.inj hm).symm
  · cases hm
    exact .inr ⟨htype, hnatural⟩

theorem eq_natural (h : t.Fits m) (hown : m.own = none) (hm : m.type = some type) :
    type = t.natural := by
  rcases h with rfl | rfl | ⟨-, type', -, rfl⟩
  · cases hm
  · exact (Option.some.inj hm).symm
  · cases hown

theorem own_eq (h : t.Fits m) (hm : m.own.or m.type = some type) : type = t.natural := by
  rcases h with rfl | rfl | ⟨-, type', -, rfl⟩
  · cases hm
  · exact (Option.some.inj hm).symm
  · exact (Option.some.inj hm).symm

theorem type_isSome (h : t.Fits m) (hown : m.own.isSome) : m.type.isSome := by
  rcases h with rfl | rfl | ⟨-, type', -, rfl⟩
  · cases hown
  · rfl
  · rfl

theorem withType_of_isSome (type : ValueType) (h : m.type.isSome) : m.withType type = m := by
  rw [Mark.withType, Option.or_of_isSome h]

theorem withType (h : t.Fits m) (htype : m.type.isSome ∨ type = t.natural) :
    t.Fits (m.withType type) := by
  rcases htype with htype | rfl
  · rwa [withType_of_isSome type htype]
  · rcases h with rfl | rfl | ⟨hnatural, type', htype, rfl⟩
    · exact .inr (.inl rfl)
    · exact .inr (.inl rfl)
    · exact .inr (.inr ⟨hnatural, type', htype, rfl⟩)

theorem cast (h : t.Fits m) (hm : m.type.isSome) (hnatural : t.natural.isNumeric)
    (htype : type.isNumeric) : t.Fits (m.cast type t.natural) := by
  refine .inr (.inr ⟨hnatural, type, htype, ?_⟩)
  rcases h with rfl | rfl | ⟨-, type', -, rfl⟩
  · cases hm
  · rfl
  · rfl

end Tree.Fits

namespace Tree

variable {c s t root : Tree}

theorem Distinct.eq_of_id_eq (hroot : root.Distinct) (hs : s ∈ root.nodes) (ht : t ∈ root.nodes)
    (h : s.id = t.id) : s = t := by
  have hst := hroot.mem_nodes_of_id_mem_region hs ht (h ▸ t.id_mem_region)
  have hts := hroot.mem_nodes_of_id_mem_region ht hs (h ▸ s.id_mem_region)
  cases t with
  | leaf => cases hst
  | node id rule span cs =>
    rcases mem_nodes_node.1 hst with rfl | ⟨c, hc, hsc⟩
    · rfl
    · have hlt := height_lt_of_mem_nodes_of_mem_children (t := .node id rule span cs) hc hsc
      exact absurd hlt (Nat.not_lt.2 (height_le_of_mem_nodes hts))

/-- The arguments of a call are among its parts. -/
theorem Formed.mem_parts_of_mem_callArguments (hroot : root.Formed) (ht : t ∈ root.nodes)
    (hcall : t.isOf .functionCall) (hc : c ∈ t.callArguments) : c ∈ t.parts := by
  obtain ⟨id, span, cs, rfl⟩ := exists_of_isOf hcall
  unfold callArguments at hc
  split at hc
  · rename_i args hargs
    have hmem : args ∈ (node id .functionCall span cs).subtrees :=
      List.mem_of_mem_tail (List.mem_of_find?_eq_some hargs)
    have hof : args.isOf .argList := List.find?_some hargs
    obtain ⟨i, sp, as, rfl⟩ := exists_of_isOf hof
    have hnodes : node i .argList sp as ∈ root.nodes := mem_nodes_trans ht
      (mem_nodes_of_mem_children (mem_children_of_mem_subtrees hmem) (self_mem_nodes rfl))
    refine mem_parts.2 ⟨_, mem_children_of_mem_subtrees hmem, ?_⟩
    change c ∈ (node i .argList sp as).parts
    refine mem_parts.2 ⟨c, mem_children_of_mem_subtrees hc, ?_⟩
    have hvisited := (hroot.form hnodes (.inl rfl)).hasForm c (mem_children_of_mem_subtrees hc)
    rw [isContainer_of_isVisited hvisited]
    exact ⟨isNode_of_isVisited hvisited, rfl⟩
  · cases hc

theorem mem_callArguments_of_mem_slots {e : Slot × Tree} (h : e ∈ t.slots) :
    e.2 ∈ t.callArguments :=
  (List.of_mem_zip h).2

end Tree

/-! ## Coherence -/

/-- Marks that stand for what was written of a tree so far. -/
structure Coherent (target : Target) (root : Tree) (n : Marks) : Prop where
  /-- Each node has a mark that it may have. -/
  fits : ∀ s ∈ root.nodes, s.Fits (n s.id)
  /-- A node has its type before one of its parts is written as another type. -/
  parts : ∀ s ∈ root.nodes, s.isContainer = false → s.isListing = false → ∀ c ∈ s.parts,
    (n c.id).own.isSome → n.Typed s
  /-- An argument is written as no other type than the one that its slot asks for. -/
  slots : ∀ s ∈ root.nodes, s.isOf .functionCall → ∀ e ∈ s.slots, (n e.2.id).own.isSome →
    ∀ type, (n e.2.id).type = some type → e.1.numeric? = some type ∧ e.2.CastsTo target type
  /-- Nothing is noted of anything else. -/
  outside : ∀ i, (∀ s ∈ root.nodes, s.id ≠ i) → n i = ⟨none, none⟩

/-- A node may be written as a type: the nodes that may have their type from it have one, and no call
asks for another type of it. -/
structure Position (target : Target) (root : Tree) (n : Marks) (type : ValueType) (t : Tree) :
    Prop where
  parts : ∀ s ∈ root.nodes, s.isContainer = false → s.isListing = false → t ∈ s.parts → n.Typed s
  slots : ∀ s ∈ root.nodes, s.isOf .functionCall → ∀ slot, (slot, t) ∈ s.slots →
    slot.numeric? = some type ∧ t.CastsTo target type

namespace Coherent

variable {target : Target} {root t : Tree} {n : Marks} {type : ValueType}

theorem blank (target : Target) (root : Tree) : Coherent target root ({} : Notes).mark where
  fits s _ := .inl (by simp [Notes.mark])
  parts s _ _ _ c _ h := by simp [Notes.mark] at h
  slots s _ _ e _ h := by simp [Notes.mark] at h
  outside i _ := by simp [Notes.mark]

theorem setType (h : Coherent target root n) (hroot : root.Distinct) (ht : t ∈ root.nodes)
    (htype : n.Typed t ∨ type = t.natural) :
    Coherent target root fun i => if i = t.id then (n i).withType type else n i where
  fits s hs := by
    by_cases hid : s.id = t.id
    · obtain rfl := hroot.eq_of_id_eq hs ht hid
      simpa using (h.fits s hs).withType htype
    · simpa [hid] using h.fits s hs
  parts s hs hcontainer hlisting c hc hown := by
    have hown' : (n c.id).own.isSome := by
      split at hown
      · exact hown
      · exact hown
    have htyped := h.parts s hs hcontainer hlisting c hc hown'
    simp only [Marks.Typed]
    split
    · exact (Mark.kept_withType _ _).type htyped
    · exact htyped
  slots s hs hcall e he hown type' htype' := by
    by_cases hid : e.2.id = t.id
    · -- An argument that is written as another type has a type, so nothing changes.
      simp only [hid, if_true] at hown htype'
      have hsome := (h.fits t ht).type_isSome hown
      rw [Tree.Fits.withType_of_isSome type hsome] at htype'
      exact h.slots s hs hcall e he (hid ▸ hown) type' (hid ▸ htype')
    · simp only [hid, if_false] at hown htype'
      exact h.slots s hs hcall e he hown type' htype'
  outside i hi := by rw [if_neg (hi t ht).symm, h.outside i hi]

/-- The marks after a node was noted as written as another type. -/
theorem cast (h : Coherent target root n) (hroot : root.Formed) (ht : t ∈ root.nodes)
    (hnatural : t.natural.isNumeric) (htype : type.isNumeric) (htyped : n.Typed t)
    (hposition : Position target root n type t) :
    Coherent target root fun i => if i = t.id then (n i).cast type t.natural else n i where
  fits s hs := by
    by_cases hid : s.id = t.id
    · obtain rfl := hroot.distinct.eq_of_id_eq hs ht hid
      simpa using (h.fits s hs).cast htyped hnatural htype
    · simpa [hid] using h.fits s hs
  parts s hs hcontainer hlisting c hc hown := by
    have htypedS : n.Typed s := by
      by_cases hid : c.id = t.id
      · obtain rfl := hroot.distinct.eq_of_id_eq
          (Tree.mem_nodes_trans hs (Tree.mem_nodes_of_mem_parts hc)) ht hid
        exact hposition.parts s hs hcontainer hlisting hc
      · simp only [hid, if_false] at hown
        exact h.parts s hs hcontainer hlisting c hc hown
    simp only [Marks.Typed]
    split
    · exact (Mark.kept_cast _ _ _).type htypedS
    · exact htypedS
  slots s hs hcall e he hown type' htype' := by
    by_cases hid : e.2.id = t.id
    · have hmem := hroot.mem_parts_of_mem_callArguments hs hcall
        (Tree.mem_callArguments_of_mem_slots he)
      obtain rfl := hroot.distinct.eq_of_id_eq
        (Tree.mem_nodes_trans hs (Tree.mem_nodes_of_mem_parts hmem)) ht hid
      simp only [if_true] at htype'
      cases htype'
      exact hposition.slots s hs hcall e.1 he
    · simp only [hid, if_false] at hown htype'
      exact h.slots s hs hcall e he hown type' htype'
  outside i hi := by rw [if_neg (hi t ht).symm, h.outside i hi]

end Coherent

/-- What stands right below a pass-through node or a sign that has a type may be written as any
type. -/
theorem Position.of_mem_operands {target : Target} {root t c : Tree} {n : Marks} (hroot : root.Formed)
    (ht : t ∈ root.nodes) (hvisited : t.isVisited) (hrefused : t.isRefused = false)
    (hkind : t.isPassThrough ∨ t.isOf .factor) (hc : c ∈ t.operands) (htyped : n.Typed t)
    (type : ValueType) : Position target root n type c := by
  have hmem := hroot.mem_parts_of_mem_operands ht hvisited hrefused hc
  have hcontainer := Tree.isContainer_of_isVisited hvisited
  constructor
  · intro s hs hscontainer _ hcs
    rw [hroot.distinct.eq_of_mem_parts hs ht hscontainer hcontainer hcs hmem]
    exact htyped
  · -- A call is neither.
    intro s hs hcall slot he
    have hcs := hroot.mem_parts_of_mem_callArguments hs hcall
      (Tree.mem_callArguments_of_mem_slots he)
    obtain ⟨id, span, cs, rfl⟩ := Tree.exists_of_isOf hcall
    obtain rfl := hroot.distinct.eq_of_mem_parts hs ht rfl hcontainer hcs hmem
    rcases hkind with hkind | hkind
    · cases (Tree.exists_child_of_isPassThrough hkind).2
    · cases Tree.rule_of_isOf hkind

end QueryScribe
