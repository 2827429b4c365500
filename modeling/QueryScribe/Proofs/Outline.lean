import QueryScribe.Proofs.Reading

/-!
# The children of nodes

The children of a node are what a production of its rule leaves of its symbols: delimiters leave
nothing, other terminals a token, rules a node, and runs the groups that they repeat. Of a child only
its face counts here, which is its token or its rule. Every node of a tree that was read follows a
production in this way (`follows_of_parse`).
-/

namespace QueryScribe

open List

/-- What can be seen of a node from above: its token or its rule. -/
inductive Face
  | token (t : Token)
  | rule (r : Rule)
deriving DecidableEq, Repr

/-- The token of a leaf, the rule of an inner node. -/
def Tree.face : Tree → Face
  | leaf _ token => .token token
  | node _ rule _ _ => .rule rule

/-- What a symbol of a production leaves among the children of a node. -/
inductive Piece
  | token (kind : Terminal)
  | node (rule : Rule)
  | run (run : Run)
deriving DecidableEq, Repr

/-- What a symbol leaves. Delimiters leave nothing. -/
def Symbol.piece? : Symbol → Option Piece
  | .terminal t => if t.isDelimiter then none else some (.token t)
  | .category (.rule r) => some (.node r)
  | .category (.run r) => some (.run r)
  | .category .source => none

/-- What some symbols leave. -/
def outline (symbols : List Symbol) : List Piece := symbols.filterMap Symbol.piece?

/-- The names of the nodes that are read for a rule. -/
def Rule.names (r : Rule) : List Rule :=
  (if r.body.isEmpty then [] else [r]) ++ r.named.map (·.2)

/-- Faces that are left by pieces one after the other, where `runs` says what runs leave. -/
inductive Spells (runs : Run → List Face → Prop) : List Piece → List Face → Prop
  | nil : Spells runs [] []
  | token {t : Token} {pieces : List Piece} {faces : List Face} :
    t.Lexed → Spells runs pieces faces → Spells runs (.token t.kind :: pieces) (.token t :: faces)
  | node {r name : Rule} {pieces : List Piece} {faces : List Face} :
    name ∈ r.names → Spells runs pieces faces → Spells runs (.node r :: pieces) (.rule name :: faces)
  | run {r : Run} {pieces : List Piece} {group faces : List Face} :
    runs r group → Spells runs pieces faces → Spells runs (.run r :: pieces) (group ++ faces)

/-- What a run leaves: groups one after the other, each left by one of the phrases of the run, which
hold no run in turn. -/
def Repeats (r : Run) (faces : List Face) : Prop :=
  ∃ groups : List (List Face), groups ≠ [] ∧ faces = groups.flatten ∧
    ∀ group ∈ groups, ∃ rhs ∈ r.body, Spells (fun _ _ => False) (outline rhs) group

namespace Spells

variable {runs runs' : Run → List Face → Prop} {pieces pieces' : List Piece}
  {faces faces' : List Face}

theorem append (h : Spells runs pieces faces) (h' : Spells runs pieces' faces') :
    Spells runs (pieces ++ pieces') (faces ++ faces') := by
  induction h with
  | nil => exact h'
  | token ht _ ih => exact .token ht ih
  | node hname _ ih => exact .node hname ih
  | run hgroup _ ih =>
    rw [append_assoc]
    exact .run hgroup ih

theorem of_no_runs (h : Spells runs pieces faces) (hpieces : ∀ r, .run r ∉ pieces) :
    Spells runs' pieces faces := by
  induction h with
  | nil => exact .nil
  | token ht _ ih => exact .token ht (ih fun r hr => hpieces r (.tail _ hr))
  | node hname _ ih => exact .node hname (ih fun r hr => hpieces r (.tail _ hr))
  | run => exact absurd (.head _) (hpieces _)

theorem nil_iff : Spells runs [] faces ↔ faces = [] := by
  constructor
  · intro h
    cases h
    rfl
  · rintro rfl
    exact .nil

theorem token_iff {kind : Terminal} : Spells runs (.token kind :: pieces) faces ↔
    ∃ (t : Token) (rest : List Face), t.kind = kind ∧ t.Lexed ∧ faces = .token t :: rest ∧
      Spells runs pieces rest := by
  constructor
  · intro h
    cases h with
    | token ht hrest => exact ⟨_, _, rfl, ht, rfl, hrest⟩
  · rintro ⟨t, rest, rfl, ht, rfl, hrest⟩
    exact .token ht hrest

theorem node_iff {r : Rule} : Spells runs (.node r :: pieces) faces ↔
    ∃ (name : Rule) (rest : List Face), name ∈ r.names ∧ faces = .rule name :: rest ∧
      Spells runs pieces rest := by
  constructor
  · intro h
    cases h with
    | node hname hrest => exact ⟨_, _, hname, rfl, hrest⟩
  · rintro ⟨name, rest, hname, rfl, hrest⟩
    exact .node hname hrest

theorem run_iff {r : Run} : Spells runs (.run r :: pieces) faces ↔
    ∃ group rest, runs r group ∧ faces = group ++ rest ∧ Spells runs pieces rest := by
  constructor
  · intro h
    cases h with
    | run hgroup hrest => exact ⟨_, _, hgroup, rfl, hrest⟩
  · rintro ⟨group, rest, hgroup, rfl, hrest⟩
    exact .run hgroup hrest

end Spells

/-! ## Nodes that follow a production -/

namespace Tree

/-- The children of a node are left by the symbols of a production of its rule. -/
def FollowsProduction (t : Tree) : Prop :=
  ∃ p ∈ productions, p.node = t.rule? ∧ Spells Repeats (outline p.rhs) (t.children.map face)

/-- Each inner node of a tree follows a production. -/
def Follows (t : Tree) : Prop := ∀ s ∈ t.nodes, s.FollowsProduction

theorem face_numberFrom (n : Nat) (t : Tree) : (t.numberFrom n).1.face = t.face := by
  cases t with
  | leaf => rfl
  | node => rfl

theorem map_face_numberFromIn (n : Nat) (ts : List Tree) :
    (numberFromIn n ts).1.map face = ts.map face := by
  induction ts generalizing n with
  | nil => rfl
  | cons t ts ih =>
    rw [numberFromIn, map_cons, map_cons, face_numberFrom, ih]

theorem exists_of_mem_numberFromIn {t : Tree} {n : Nat} {ts : List Tree}
    (h : t ∈ (numberFromIn n ts).1) : ∃ s ∈ ts, ∃ m, t = (s.numberFrom m).1 := by
  induction ts generalizing n with
  | nil => cases h
  | cons s ts ih =>
    rcases mem_cons.1 h with rfl | h
    · exact ⟨s, .head _, n, rfl⟩
    · obtain ⟨s', hs', m, rfl⟩ := ih h
      exact ⟨s', .tail _ hs', m, rfl⟩

theorem Follows.numberFrom {t : Tree} (h : t.Follows) (n : Nat) : (t.numberFrom n).1.Follows := by
  induction t using induction generalizing n with
  | leaf => exact h
  | node id rule span cs ih =>
    intro s hs
    rcases mem_nodes_node.1 hs with rfl | ⟨c, hc, hs⟩
    · obtain ⟨p, hp, hnode, hspells⟩ := h _ (self_mem_nodes rfl)
      refine ⟨p, hp, hnode, ?_⟩
      change Spells _ _ (((numberFromIn (n + 1) cs).1).map face)
      rw [map_face_numberFromIn]
      exact hspells
    · obtain ⟨c', hc', m, rfl⟩ := exists_of_mem_numberFromIn hc
      exact ih c' hc' (fun s hs => h s (mem_nodes_node.2 (.inr ⟨c', hc', hs⟩))) m s hs

end Tree

/-- What is read for a symbol is what it leaves, and its nodes follow productions. -/
def Symbol.Leaves (x : Symbol) (trees : List Tree) : Prop :=
  (x ≠ .category .source → Spells Repeats x.piece?.toList (trees.map Tree.face)) ∧
    ∀ t ∈ trees, t.Follows

theorem Production.rhs_of_mem_productions : ∀ p ∈ productions,
    .category .source ∉ p.rhs ∧ (p.rhs = [] → p.lhs = .rule .fileInput) ∧
      (.category (.rule .fileInput) ∈ p.rhs → p = .start) ∧
        p.rhs.head? ≠ some (.terminal .indent) ∧ p.rhs.head? ≠ some (.terminal .dedent) := by
  decide +kernel

variable {p : Production}

theorem Production.source_notMem_rhs (hp : p ∈ productions) :
    .category .source ∉ p.rhs :=
  (rhs_of_mem_productions p hp).1

theorem Run.run_notMem_outline (r : Run) : ∀ rhs ∈ r.body, ∀ r', .run r' ∉ outline rhs := by
  have h : ∀ rhs ∈ r.body, (outline rhs).all (fun | .run _ => false | _ => true) := by
    cases r <;> decide
  intro rhs hrhs r' hr'
  exact Bool.false_ne_true (all_eq_true.1 (h rhs hrhs) _ hr')

theorem Symbol.Leaves.outline {symbols : List Symbol} {parts : List Parser.Fragment}
    (h : Forall₂ (fun x part => x.Leaves part.trees) symbols parts)
    (hsource : .category .source ∉ symbols) :
    Spells Repeats (outline symbols) ((parts.flatMap (·.trees)).map Tree.face) ∧
      ∀ t ∈ parts.flatMap (·.trees), t.Follows := by
  induction h with
  | nil => exact ⟨.nil, fun _ ht => nomatch ht⟩
  | @cons x part symbols parts hx _ ih =>
    obtain ⟨hspells, hfollows⟩ := ih fun h => hsource (.tail _ h)
    have hfirst := hx.1 fun h => hsource (h ▸ (.head _))
    have houtline : QueryScribe.outline (x :: symbols) =
        x.piece?.toList ++ QueryScribe.outline symbols := by
      rw [QueryScribe.outline, filterMap_cons]
      cases x.piece? <;> rfl
    rw [houtline, flatMap_cons, map_append]
    refine ⟨hfirst.append hspells, fun t ht => ?_⟩
    rcases mem_append.1 ht with ht | ht
    · exact hx.2 t ht
    · exact hfollows t ht

/-- A group is what its run leaves, alone or after what the run left before. -/
theorem Repeats.of_production {r : Run} (hp : p ∈ r.productions) {faces : List Face}
    (h : Spells Repeats (outline p.rhs) faces) : Repeats r faces := by
  rcases mem_append.1 hp with hp | hp
  · obtain ⟨rhs, hrhs, rfl⟩ := mem_map.1 hp
    refine ⟨[faces], cons_ne_nil _ _, by simp, fun group hgroup => ⟨rhs, hrhs, ?_⟩⟩
    rw [mem_singleton.1 hgroup]
    exact h.of_no_runs (r.run_notMem_outline rhs hrhs)
  · obtain ⟨rhs, hrhs, rfl⟩ := mem_map.1 hp
    obtain ⟨before, group, ⟨groups, hne, rfl, hgroups⟩, rfl, hgroup⟩ := Spells.run_iff.1 h
    refine ⟨groups ++ [group], by simp, by simp, fun g hg => ?_⟩
    rcases mem_append.1 hg with hg | hg
    · exact hgroups g hg
    · rw [mem_singleton.1 hg]
      exact ⟨rhs, hrhs, hgroup.of_no_runs (r.run_notMem_outline rhs hrhs)⟩

theorem Rule.node_of_mem_productions {r : Rule} (hp : p ∈ r.productions) :
    ∃ name ∈ r.names, p.node = some name := by
  rcases mem_append.1 hp with hp | hp
  · obtain ⟨rhs, hrhs, rfl⟩ := mem_map.1 hp
    have hbody : r.body.isEmpty = false := isEmpty_eq_false_iff.2 (ne_nil_of_mem hrhs)
    exact ⟨r, by simp [Rule.names, hbody], rfl⟩
  · obtain ⟨⟨phrase, name⟩, hmem, hp⟩ := mem_flatMap.1 hp
    obtain ⟨rhs, -, rfl⟩ := mem_map.1 hp
    exact ⟨name, mem_append_right _ (mem_map_of_mem hmem), rfl⟩

/-- Tokens are what terminals leave, and productions make of their parts what their categories
leave. -/
theorem closed_leaves : Parser.Closed Symbol.Leaves where
  token t ht := by
    unfold Parser.Fragment.ofToken Symbol.Leaves
    rw [Symbol.piece?]
    by_cases hdelimiter : t.kind.isDelimiter
    · rw [if_pos hdelimiter, if_pos hdelimiter]
      exact ⟨fun _ => .nil, fun _ h => nomatch h⟩
    · rw [if_neg hdelimiter, if_neg hdelimiter]
      refine ⟨fun _ => .token ht .nil, fun c hc => ?_⟩
      rw [mem_singleton.1 hc]
      exact fun _ hs => nomatch hs
  join p hp parts hparts := by
    obtain ⟨hspells, hfollows⟩ := Symbol.Leaves.outline hparts (Production.source_notMem_rhs hp)
    have hmem := p.mem_of_mem_productions hp
    cases hlhs : p.lhs with
    | source =>
      refine ⟨fun h => absurd rfl h, ?_⟩
      rw [Production.eq_start hp hlhs]
      exact hfollows
    | run r =>
      rw [hlhs] at hmem
      have hnode : p.node = none := by
        rcases mem_append.1 hmem with hmem | hmem
        all_goals
          obtain ⟨rhs, -, rfl⟩ := mem_map.1 hmem
          rfl
      rw [hnode]
      refine ⟨fun _ => ?_, hfollows⟩
      rw [← append_nil (List.map _ _)]
      exact .run (.of_production hmem hspells) .nil
    | rule r =>
      rw [hlhs] at hmem
      obtain ⟨name, hname, hnode⟩ := Rule.node_of_mem_productions hmem
      rw [hnode]
      refine ⟨fun _ => .node hname .nil, fun t ht => ?_⟩
      rw [mem_singleton.1 ht]
      intro s hs
      rcases Tree.mem_nodes_node.1 hs with rfl | ⟨c, hc, hs⟩
      · exact ⟨p, hp, hnode, hspells⟩
      · exact hfollows c hc s hs

theorem Tree.follows_of_parse {source : String} {t : Tree} (h : parse source = .ok t) :
    t.Follows := by
  obtain ⟨s, trees, hleaves, hhead, rfl⟩ := exists_of_parse_of_closed closed_leaves h
  exact (hleaves.2 s (mem_of_mem_head? hhead)).numberFrom 0

end QueryScribe
