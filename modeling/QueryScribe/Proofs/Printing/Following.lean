import Mathlib.Data.List.Induction
import QueryScribe.Proofs.Form
import QueryScribe.Proofs.Printing.Trees

/-!
# Trees that follow the grammar are written

The children of a node that follows a production are what the symbols of the production leave, one after
the other (`Spells.exists_parts`). So a tree whose nodes follow productions and have settings is written
for its rule, by induction on the tree (`Tree.Follows.isWritten`); the items of a run are written one
group after the other, by induction from the end, as the grammar puts a run in front of its last group
(`Run.written_of_groups`).
-/

namespace QueryScribe

open List

/-! ## What symbols leave -/

/-- The rule that nodes of a name are read for. -/
def Rule.owner : Rule → Rule
  | .functionCall | .attributeAccess | .indexAccess => .atomExpr
  | .setLiteral | .arrayLiteral | .objectLiteral | .identifier | .stringLiteral | .integerLiteral
  | .hexLiteral | .octLiteral | .binLiteral | .floatLiteral | .imagLiteral | .booleanLiteral
  | .noneLiteral | .ellipsisAtom => .atom
  | .keywordArgument | .starArgument => .argument
  | r => r

theorem Rule.owner_of_mem_names (r : Rule) : ∀ name ∈ r.names, name.owner = r := by
  cases r <;> decide

variable {runs : Run → List Face → Prop}

theorem Spells.cons_inv {p : Piece} {pieces : List Piece}
    {faces : List Face} (h : Spells runs (p :: pieces) faces) :
    ∃ group rest, faces = group ++ rest ∧ Spells runs [p] group ∧ Spells runs pieces rest := by
  cases h with
  | @token t _ rest ht hrest => exact ⟨[.token t], rest, rfl, .token ht .nil, hrest⟩
  | @node _ name _ rest hname hrest => exact ⟨[.rule name], rest, rfl, .node hname .nil, hrest⟩
  | @run _ _ group rest hgroup hrest =>
    refine ⟨group, rest, rfl, ?_, hrest⟩
    rw [← append_nil group]
    exact .run hgroup .nil

theorem Spells.exists_parts {symbols : List Symbol} {cs : List Tree}
    (h : Spells runs (outline symbols) (cs.map Tree.face)) :
    ∃ parts : List (List Tree), parts.flatten = cs ∧
      Forall₂ (fun x part => Spells runs x.piece?.toList (part.map Tree.face)) symbols parts := by
  induction symbols generalizing cs with
  | nil => exact ⟨[], by rw [h.tree_nil, flatten_nil], .nil⟩
  | cons x symbols ih =>
    rw [outline, filterMap_cons] at h
    cases hpiece : x.piece? with
    | none =>
      rw [hpiece] at h
      obtain ⟨parts, rfl, hparts⟩ := ih h
      refine ⟨[] :: parts, rfl, .cons ?_ hparts⟩
      rw [hpiece]
      exact .nil
    | some p =>
      rw [hpiece] at h
      obtain ⟨group, rest, hfaces, hgroup, hrest⟩ := h.cons_inv
      obtain ⟨part, others, rfl, rfl, rfl⟩ := map_eq_append_iff.1 hfaces
      obtain ⟨parts, rfl, hparts⟩ := ih hrest
      refine ⟨part :: parts, rfl, .cons ?_ hparts⟩
      rw [hpiece]
      exact hgroup

/-- A tree is written for the rule that it is read for. -/
def Tree.IsWritten (t : Tree) : Prop :=
  ∀ name ∈ t.rule?, name.owner.isSet = true ∧
    QueryScribe.Written (.category (.rule name.owner)) t.printed [t.bare]

/-- What a symbol leaves is printed for it, where this is known of runs. -/
theorem Symbol.prints_of_spells {x : Symbol} {trees : List Tree}
    (h : Spells runs x.piece?.toList (trees.map Tree.face)) (hx : x ≠ .category .source)
    (hruns : ∀ r, x = .category (.run r) → runs r (trees.map Tree.face) → x.Prints trees)
    (htrees : ∀ t ∈ trees, t.IsWritten) : x.Prints trees := by
  match x with
  | .category .source => exact absurd rfl hx
  | .category (.run r) => exact hruns r rfl h.tree_run
  | .terminal k =>
    cases hk : k.isDelimiter with
    | true =>
      rw [Symbol.piece?, if_pos hk] at h
      rw [h.tree_nil]
      exact .delimiter hk
    | false =>
      rw [Symbol.piece?, if_neg (by simp [hk])] at h
      obtain ⟨id, token, rest, rfl, rfl, hlexed, hrest⟩ := h.tree_of_token
      rw [hrest.tree_nil]
      exact .token hk (hlexed.written_leaf hk id)
  | .category (.rule r) =>
    obtain ⟨name, rest, hname, hfaces, hrest⟩ := Spells.node_iff.1 h
    obtain ⟨t, others, rfl, hface, rfl⟩ := map_eq_cons_iff.1 hfaces
    rw [hrest.tree_nil] at htrees ⊢
    have hrule : name ∈ t.rule? := by
      cases t with
      | leaf => cases hface
      | node => cases hface; rfl
    have hwritten := htrees t (.head _) name hrule
    rw [r.owner_of_mem_names name hname] at hwritten
    exact .node hwritten.1 hwritten.2

theorem forall₂_prints {symbols : List Symbol} {parts : List (List Tree)}
    (h : Forall₂ (fun x part => Spells runs x.piece?.toList (part.map Tree.face)) symbols parts)
    (hsource : .category .source ∉ symbols)
    (hruns : ∀ r trees, runs r (trees.map Tree.face) → (∀ t ∈ trees, t.IsWritten) →
      (Symbol.category (.run r)).Prints trees)
    (htrees : ∀ t ∈ parts.flatten, t.IsWritten) : Forall₂ Symbol.Prints symbols parts := by
  induction h with
  | nil => exact .nil
  | @cons x part symbols parts hx _ ih =>
    rw [flatten_cons] at htrees
    obtain ⟨hfirst, hothers⟩ := forall_mem_append.1 htrees
    have hne : x ≠ .category .source := fun h => hsource (h ▸ (.head _))
    refine .cons (x.prints_of_spells hx hne ?_ hfirst)
      (ih (fun h => hsource (.tail _ h)) hothers)
    rintro r rfl hrun
    exact hruns r part hrun hfirst

/-- Groups of trees that phrases of a run leave are printed for the run. -/
theorem Run.written_of_groups {r : Run} {between : List Spot} (hbetween : r.separator? = some between)
    {groups : List (List Tree)} (hne : groups ≠ []) (hgroups : ∀ group ∈ groups, ∃ rhs ∈ r.body,
      Spells (fun _ _ => False) (outline rhs) (group.map Tree.face))
    (htrees : ∀ t ∈ groups.flatten, t.IsWritten) :
    Written (.category (.run r)) (Tree.printedAfter (glyphsOf between) groups.flatten)
      (groups.flatten.map Tree.bare) := by
  -- The last group is a phrase of the run, and what stands before it is a shorter run.
  induction groups using List.reverseRecOn with
  | nil => exact absurd rfl hne
  | append_singleton groups group ih =>
    obtain ⟨rhs, hrhs, hspells⟩ := hgroups group (by simp)
    have hfirst : (⟨.run r, rhs, none⟩ : Production) ∈ r.productions :=
      mem_append_left _ (mem_map_of_mem hrhs)
    have hnext : (⟨.run r, .category (.run r) :: rhs, none⟩ : Production) ∈ r.productions :=
      mem_append_right _ (mem_map_of_mem hrhs)
    have hsource : .category .source ∉ rhs :=
      Production.source_notMem_rhs (Production.mem_productions (c := .run r) hfirst)
    rw [flatten_append, flatten_singleton] at htrees ⊢
    obtain ⟨hbefore, hlast⟩ := forall_mem_append.1 htrees
    obtain ⟨parts, rfl, hparts⟩ := hspells.exists_parts
    have hprints := forall₂_prints hparts hsource (fun _ _ h => h.elim) hlast
    cases groups with
    | nil => exact written_run (p := ⟨.run r, rhs, none⟩) hprints hfirst rfl hbetween
    | cons first groups =>
      have hrun := ih nofun (fun g hg => hgroups g (mem_append_left _ hg)) hbefore
      have hall : Forall₂ Symbol.Prints (.category (.run r) :: rhs)
          ((first :: groups).flatten :: parts) := by
        refine .cons (.run fun between' h => ?_) hprints
        rw [Option.mem_unique h hbetween]
        exact hrun
      exact written_run (p := ⟨.run r, .category (.run r) :: rhs, none⟩) hall hnext rfl hbetween

theorem exists_groups_of_map_eq {α β : Type} {f : α → β} {l : List α} {groups : List (List β)}
    (h : l.map f = groups.flatten) : ∃ gs : List (List α), l = gs.flatten ∧ gs.map (·.map f) = groups := by
  induction groups generalizing l with
  | nil => exact ⟨[], map_eq_nil_iff.1 h, rfl⟩
  | cons group groups ih =>
    rw [flatten_cons] at h
    obtain ⟨first, rest, rfl, rfl, hrest⟩ := map_eq_append_iff.1 h
    obtain ⟨gs, rfl, rfl⟩ := ih hrest
    exact ⟨first :: gs, rfl, rfl⟩

theorem Repeats.prints {r : Run} {trees : List Tree} (h : Repeats r (trees.map Tree.face))
    (htrees : ∀ t ∈ trees, t.IsWritten) : (Symbol.category (.run r)).Prints trees := by
  obtain ⟨groups, hne, hfaces, hgroups⟩ := h
  obtain ⟨gs, rfl, rfl⟩ := exists_groups_of_map_eq hfaces
  refine .run fun between hbetween => Run.written_of_groups hbetween ?_ ?_ htrees
  · rintro rfl
    exact hne rfl
  · exact fun group hgroup => hgroups _ (mem_map_of_mem hgroup)

/-- A tree whose nodes follow productions and have settings is written for its rule. -/
theorem Tree.Follows.isWritten {t : Tree} (h : t.Follows) (hset : t.IsSet) : t.IsWritten := by
  induction t using induction with
  | leaf => exact nofun
  | node id name span cs ih =>
    rintro _ ⟨⟩
    obtain ⟨p, hp, hnode, hspells⟩ := h _ (self_mem_nodes rfl)
    obtain ⟨s, hs⟩ := Option.isSome_iff_exists.1 (hset _ (self_mem_nodes rfl))
    obtain ⟨parts, rfl, hparts⟩ := hspells.exists_parts
    have hprints : Forall₂ Symbol.Prints p.rhs parts :=
      forall₂_prints hparts (Production.source_notMem_rhs hp) (fun r trees => Repeats.prints) fun t ht =>
        ih t ht (fun s hs => h s (mem_nodes_node.2 (.inr ⟨t, ht, hs⟩)))
          fun s hs => hset s (mem_nodes_node.2 (.inr ⟨t, ht, hs⟩))
    have hlhs : p.lhs = .rule name.owner ∧ name ∈ name.owner.names := by
      have hmem := p.mem_of_mem_productions hp
      cases hlhs : p.lhs with
      | source =>
        rw [Production.eq_start hp hlhs] at hnode
        cases hnode
      | run r =>
        rw [hlhs] at hmem
        rw [Run.node_of_mem_productions hmem] at hnode
        cases hnode
      | rule r =>
        rw [hlhs] at hmem
        obtain ⟨name', hname, hnode'⟩ := Rule.node_of_mem_productions hmem
        cases hnode'.symm.trans hnode
        rw [r.owner_of_mem_names _ hname]
        exact ⟨rfl, hname⟩
    have hwritten := written_node hprints hp hnode hs id span
    rw [hlhs.1] at hwritten
    exact ⟨any_eq_true.2 ⟨name, hlhs.2, Option.isSome_iff_exists.2 ⟨s, hs⟩⟩, hwritten⟩

end QueryScribe
