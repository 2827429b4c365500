import Mathlib.Data.List.Nodup
import Mathlib.Data.List.Pairwise
import Mathlib.Data.Set.Lattice
import Mathlib.Order.CompletePartialOrder
import QueryScribe.Syntax.Parser

/-!
# The numbers of nodes

Notes are kept under the numbers of nodes, so what is noted of one node can only be told from what
is noted of another if their numbers differ. `numberFrom` gives the nodes of a tree consecutive
numbers (`ids_numberFrom`), so the nodes of every tree that was read are distinct
(`distinct_of_parse`). The region of a tree is the set of its numbers: the regions of its children
lie within it, and apart from each other if its nodes are distinct.
-/

namespace QueryScribe

theorem eq_ok_of_mem_toOption {ε α : Type} {e : Except ε α} {a : α} (h : a ∈ e.toOption) :
    e = .ok a := by
  cases e with
  | error reason => cases h
  | ok b => cases h; rfl

namespace Tree

mutual

/-- The numbers of a node and of all nodes below it. -/
def ids : Tree → List Nat
  | leaf id _ => [id]
  | node id _ _ children => id :: idsIn children

/-- The numbers of some nodes and of all nodes below them. -/
def idsIn : List Tree → List Nat
  | [] => []
  | t :: ts => ids t ++ idsIn ts

end

/-- The nodes of a tree have numbers of their own. -/
def Distinct (t : Tree) : Prop := t.ids.Nodup

/-- The set of the numbers of a tree. -/
def region (t : Tree) : Set Nat := {i | i ∈ t.ids}

/-- Trees no two of which share a number. -/
def Apart (ts : List Tree) : Prop := ts.Pairwise fun s t => Disjoint s.region t.region

/-! ## Nodes -/

theorem induction {motive : Tree → Prop} (leaf : ∀ id token, motive (leaf id token))
    (node : ∀ id rule span children, (∀ c ∈ children, motive c) →
      motive (node id rule span children)) : (t : Tree) → motive t
  | .leaf id token => leaf id token
  | .node id rule span children =>
    node id rule span children fun c _ => induction leaf node c

variable {ts : List Tree}

variable {s : Tree}

theorem mem_nodesIn : s ∈ nodesIn ts ↔ ∃ t ∈ ts, s ∈ t.nodes := by
  induction ts with
  | nil => simp [nodesIn]
  | cons t ts ih => simp [nodesIn, ih]

theorem mem_nodes_node {id : Nat} {rule : Rule} {span : Span} {children : List Tree} :
    s ∈ (node id rule span children).nodes ↔
      s = node id rule span children ∨ ∃ c ∈ children, s ∈ c.nodes := by
  rw [nodes, List.mem_cons, mem_nodesIn]

variable {t : Tree}

theorem self_mem_nodes (h : t.isNode) : t ∈ t.nodes := by
  cases t with
  | leaf => cases h
  | node => exact .head _

theorem isNode_of_mem_nodes (h : s ∈ t.nodes) : s.isNode := by
  induction t using induction with
  | leaf => cases h
  | node id rule span cs ih =>
    rcases mem_nodes_node.1 h with rfl | ⟨c, hc, h⟩
    · rfl
    · exact ih c hc h

theorem mem_nodes_of_mem_children (hc : c ∈ t.children) (h : s ∈ c.nodes) :
    s ∈ t.nodes := by
  cases t with
  | leaf => cases hc
  | node => exact mem_nodes_node.2 (.inr ⟨c, hc, h⟩)

theorem mem_nodes_trans {root : Tree} (ht : t ∈ root.nodes) (h : s ∈ t.nodes) :
    s ∈ root.nodes := by
  induction root using induction with
  | leaf => cases ht
  | node id rule span cs ih =>
    rcases mem_nodes_node.1 ht with rfl | ⟨c, hc, ht⟩
    · exact h
    · exact mem_nodes_of_mem_children hc (ih c hc ht)

/-! ## Numbering -/

mutual

theorem ids_numberFrom (n : Nat) : (t : Tree) →
    (t.numberFrom n).1.ids = List.range' n t.ids.length ∧ (t.numberFrom n).2 = n + t.ids.length
  | leaf _ _ => by simp [numberFrom, ids]
  | node _ _ _ children => by
    obtain ⟨hids, hnext⟩ := idsIn_numberFromIn (n + 1) children
    simp only [numberFrom, ids, hids, hnext, List.length_cons, List.range'_succ]
    exact ⟨trivial, by omega⟩

theorem idsIn_numberFromIn (n : Nat) : (ts : List Tree) →
    idsIn (numberFromIn n ts).1 = List.range' n (idsIn ts).length ∧
      (numberFromIn n ts).2 = n + (idsIn ts).length
  | [] => by simp [numberFromIn, idsIn]
  | t :: ts => by
    obtain ⟨hids, hnext⟩ := ids_numberFrom n t
    obtain ⟨hidsIn, hnextIn⟩ := idsIn_numberFromIn (n + t.ids.length) ts
    simp only [numberFromIn, idsIn, hids, hnext, hidsIn, hnextIn, List.length_append]
    exact ⟨by simp, by omega⟩

end

theorem distinct_numberFrom (n : Nat) (t : Tree) : (t.numberFrom n).1.Distinct := by
  rw [Distinct, (ids_numberFrom n t).1]
  exact List.nodup_range'

@[simp]
theorem rule?_numberFrom (n : Nat) (t : Tree) : (t.numberFrom n).1.rule? = t.rule? := by
  cases t with
  | leaf => rfl
  | node => rfl

theorem exists_of_parse {source : String} (h : parse source = .ok t) :
    ∃ s : Tree, Parser.readWithin .source (normalize source).length 0 (normalize source) {} = .ok s ∧
      t = (s.numberFrom 0).1 := by
  unfold parse at h
  dsimp only at h
  cases hread : Parser.readWithin .source (normalize source).length 0 (normalize source) {} with
  | error e => rw [hread] at h; cases h
  | ok s =>
    rw [hread] at h
    exact ⟨s, rfl, (Except.ok.inj h).symm⟩

theorem distinct_of_parse {source : String} (h : parse source = .ok t) : t.Distinct := by
  obtain ⟨s, -, rfl⟩ := exists_of_parse h
  exact distinct_numberFrom 0 s

/-! ## Regions -/

theorem mem_idsIn {i : Nat} : i ∈ idsIn ts ↔ ∃ t ∈ ts, i ∈ t.ids := by
  induction ts with
  | nil => simp [idsIn]
  | cons t ts ih => simp [idsIn, ih]

theorem id_mem_region (t : Tree) : t.id ∈ t.region := by
  cases t with
  | leaf => simp [region, ids, id]
  | node => simp [region, ids, id]

variable {c t : Tree}

theorem region_subset_of_mem_children (h : c ∈ t.children) : c.region ⊆ t.region := by
  cases t with
  | leaf => simp [children] at h
  | node id rule span cs =>
    intro i hi
    exact .tail _ (mem_idsIn.2 ⟨c, h, hi⟩)

theorem region_subset_of_mem_nodes (h : s ∈ t.nodes) : s.region ⊆ t.region := by
  induction t using induction with
  | leaf => cases h
  | node id rule span cs ih =>
    rcases mem_nodes_node.1 h with rfl | ⟨c, hc, h⟩
    · rfl
    · exact (ih c hc h).trans (region_subset_of_mem_children hc)

theorem mem_children_of_mem_subtrees (h : c ∈ t.subtrees) : c ∈ t.children :=
  List.mem_of_mem_filter h

theorem region_subset_of_mem_subtrees (h : c ∈ t.subtrees) : c.region ⊆ t.region :=
  region_subset_of_mem_children (mem_children_of_mem_subtrees h)

theorem height_le_heightIn (h : c ∈ ts) : c.height ≤ heightIn ts := by
  induction ts with
  | nil => cases h
  | cons t ts ih =>
    rw [heightIn]
    rcases List.mem_cons.1 h with rfl | h
    · exact Nat.le_max_left _ _
    · exact (ih h).trans (Nat.le_max_right _ _)

theorem height_lt_of_mem_children (h : c ∈ t.children) : c.height < t.height := by
  cases t with
  | leaf => simp [children] at h
  | node id rule span cs => exact Nat.lt_succ_of_le (height_le_heightIn h)

theorem height_lt_of_mem_nodes_of_mem_children (hc : c ∈ t.children) (h : s ∈ c.nodes) :
    s.height < t.height := by
  have hle : s.height ≤ c.height := by
    clear hc
    induction c using induction with
    | leaf => cases h
    | node id rule span cs ih =>
      rcases mem_nodes_node.1 h with rfl | ⟨d, hd, h⟩
      · rfl
      · exact (ih d hd h).trans
          (Nat.le_of_lt (height_lt_of_mem_children (t := .node id rule span cs) hd))
  exact hle.trans_lt (height_lt_of_mem_children hc)

/-! ## Distinct nodes -/

theorem nodup_idsIn : (idsIn ts).Nodup ↔ (∀ t ∈ ts, t.Distinct) ∧ Apart ts := by
  induction ts with
  | nil => simp [idsIn, Apart]
  | cons t ts ih =>
    have hdisjoint : t.ids.Disjoint (idsIn ts) ↔ ∀ s ∈ ts, Disjoint t.region s.region := by
      simp only [List.disjoint_left, mem_idsIn, not_exists, not_and, Set.disjoint_left, region,
        Set.mem_ofPred_eq]
      exact ⟨fun h s hs i hi => h hi s hs, fun h i hi s hs => h s hs hi⟩
    rw [idsIn, List.nodup_append', ih, hdisjoint, List.forall_mem_cons, Apart, Apart,
      List.pairwise_cons]
    rw [and_assoc, and_assoc]
    exact and_congr .rfl (and_congr .rfl and_comm)

theorem Distinct.of_mem_children (ht : t.Distinct) (h : c ∈ t.children) : c.Distinct := by
  cases t with
  | leaf => simp [children] at h
  | node id rule span cs => exact (nodup_idsIn.1 (List.nodup_cons.1 ht).2).1 c h

theorem Distinct.of_mem_nodes (root : Tree) (hroot : root.Distinct)
    (h : t ∈ root.nodes) : t.Distinct := by
  induction root using induction with
  | leaf => cases h
  | node id rule span cs ih =>
    rcases mem_nodes_node.1 h with rfl | ⟨c, hc, h⟩
    · exact hroot
    · exact ih c hc (hroot.of_mem_children hc) h

theorem Distinct.apart_children (ht : t.Distinct) : Apart t.children := by
  cases t with
  | leaf => exact List.Pairwise.nil
  | node id rule span cs => exact (nodup_idsIn.1 (List.nodup_cons.1 ht).2).2

theorem Distinct.eq_of_mem_region {d : Tree} {i : Nat} (ht : t.Distinct) (hc : c ∈ t.children)
    (hd : d ∈ t.children) (hic : i ∈ c.region) (hid : i ∈ d.region) : c = d := by
  by_contra hne
  have hsymm : Std.Symm fun s t : Tree => Disjoint s.region t.region := ⟨fun _ _ h => h.symm⟩
  have hdisjoint : Disjoint c.region d.region := ht.apart_children.forall hc hd hne
  exact Set.disjoint_left.1 hdisjoint hic hid

theorem Distinct.id_notMem_region (ht : t.Distinct) (hc : c ∈ t.children) : t.id ∉ c.region := by
  cases t with
  | leaf => cases hc
  | node id rule span cs => exact fun h => (List.nodup_cons.1 ht).1 (mem_idsIn.2 ⟨c, hc, h⟩)

/-- A node whose number lies in the region of another is a node of the other. -/
theorem Distinct.mem_nodes_of_id_mem_region {root : Tree} (hroot : root.Distinct) (hs : s ∈ root.nodes)
    (ht : t ∈ root.nodes) (h : s.id ∈ t.region) : s ∈ t.nodes := by
  induction root using induction with
  | leaf => cases hs
  | node id rule span cs ih =>
    rcases mem_nodes_node.1 ht with rfl | ⟨d, hd, ht⟩
    · exact hs
    · have hid : s.id ∈ d.region := region_subset_of_mem_nodes ht h
      rcases mem_nodes_node.1 hs with rfl | ⟨c, hc, hs⟩
      · exact absurd hid (hroot.id_notMem_region hd)
      · obtain rfl := hroot.eq_of_mem_region hc hd
          (region_subset_of_mem_nodes hs s.id_mem_region) hid
        exact ih c hc (hroot.of_mem_children hc) hs ht

theorem Distinct.apart_subtrees (ht : t.Distinct) : Apart t.subtrees :=
  ht.apart_children.filter _

end Tree

end QueryScribe
