import QueryScribe.Proofs.Building.Coverage
import QueryScribe.Proofs.Shapes
import QueryScribe.Proofs.Writing.Expression

/-!
# Documents and arrays that a query looks into

What a query writes of a document stands in documents and arrays (`Tree.Collects`,
`Shape.entriesAll_ofTree`). What it only reads can be written too: the nodes that it looks through do
not count, and documents and arrays can be written once what they hold can
(`Shape.writable_document`, `Shape.writable_array`).
-/

namespace QueryScribe

open List

open Shape (Below Reads Drops)

namespace Tree

variable {c d s t root : Tree} {id : Nat} {span : Span} {cs : List Tree}

/-! ## Nodes in documents and arrays -/

/-- A node stands in a document or an array below another. -/
def Collects (t s : Tree) : Prop := s.isVisited ∧ ∃ u ∈ t.nodes, u.isListing ∧ s ∈ u.parts

theorem Collects.mem_nodes (h : t.Collects s) : s ∈ t.nodes ∧ s.height < t.height := by
  obtain ⟨-, u, hu, -, hs⟩ := h
  exact ⟨mem_nodes_trans hu (mem_nodes_of_mem_parts hs),
    (height_lt_of_mem_parts hs).trans_le (height_le_of_mem_nodes hu)⟩

theorem isContainer_of_isListing (h : t.isListing) : t.isContainer = false := by
  rcases Bool.or_eq_true_iff.1 h with h | h
  all_goals
    rw [isContainer, beq_iff_eq.1 h]
    rfl

theorem Formed.exists_pair (hroot : root.Formed) (ht : t ∈ root.nodes)
    (hrule : t.rule? = some .keyValue) :
    ∃ key value, t.children = [key, value] ∧ key.isVisited ∧ value.isVisited := by
  obtain ⟨id, span, cs, rfl⟩ := exists_of_rule? hrule
  exact (hroot.form ht (.inl rfl)).hasForm

variable {listing : Tree}

theorem mem_parts_of_entry {entry : Tree} (hlisting : listing ∈ t.children)
    (hcontainer : listing.isContainer) (hentry : entry ∈ listing.children)
    (hrule : entry.rule? = some .keyValue) (hc : c ∈ entry.children) (hvisited : c.isVisited) :
    c ∈ t.parts := by
  refine mem_parts.2 ⟨listing, hlisting, ?_⟩
  rw [if_pos hcontainer]
  refine mem_parts.2 ⟨entry, hentry, ?_⟩
  have hentryContainer : entry.isContainer := by rw [isContainer, hrule]; rfl
  rw [if_pos hentryContainer]
  exact mem_parts_of_isVisited hc hvisited

theorem Formed.rule_of_listing {rule listing : Rule} (hroot : root.Formed)
    (ht : node id rule span (c :: cs) ∈ root.nodes) (hlisting : rule.listing? = some listing) :
    c.rule? = some listing ∧ cs = [] := by
  cases rule
  case setLiteral | arrayLiteral | objectLiteral =>
    cases hroot.form ht (.inl rfl) with
    | collection h hc =>
      rw [hlisting] at h
      cases h
      exact ⟨hc, rfl⟩
    | refused h | wrapper h | literal h | logical h | operation h => cases h
    | qualified h | items h => rcases h with h | h <;> cases h
  all_goals cases hlisting

theorem Formed.collects_of_entry (hroot : root.Formed) (ht : t ∈ root.nodes)
    (hmem : node id .objectLiteral span [listing] ∈ t.nodes)
    (hlisting : listing.rule? = some .dictOrSet) (hentry : d.isNode → d.isOf .keyValue)
    (hd : d ∈ listing.children) (hc : c ∈ d.children) : t.Collects c := by
  have hrule : d.rule? = some .keyValue := by
    cases d with
    | leaf => cases hc
    | node => exact beq_iff_eq.1 (hentry rfl)
  have hdmem : d ∈ root.nodes := mem_nodes_trans (mem_nodes_trans ht hmem)
    (mem_nodes_of_mem_children (mem_singleton_self listing)
      (mem_nodes_of_mem_children hd (self_mem_nodes (isNode_of_rule? hrule))))
  obtain ⟨key, value, hchildren, hkey, hvalue⟩ := hroot.exists_pair hdmem hrule
  have hvisited : c.isVisited := by
    rw [hchildren] at hc
    rcases mem_cons.1 hc with rfl | hc
    · exact hkey
    · rw [mem_singleton.1 hc]
      exact hvalue
  have hcontainer : listing.isContainer := by rw [isContainer, hlisting]; rfl
  exact ⟨hvisited, _, hmem, rfl,
    mem_parts_of_entry (mem_singleton_self listing) hcontainer hd hrule hc hvisited⟩

theorem Formed.collects_of_item (hroot : root.Formed) (ht : t ∈ root.nodes)
    (hmem : node id .arrayLiteral span [listing] ∈ t.nodes)
    (hlisting : listing.rule? = some .testListComp) (hd : d ∈ listing.children) : t.Collects d := by
  have hlistingMem : listing ∈ root.nodes := mem_nodes_trans (mem_nodes_trans ht hmem)
    (mem_nodes_of_mem_children (mem_singleton_self listing)
      (self_mem_nodes (isNode_of_rule? hlisting)))
  have hvisited := (hroot.parts_of_items hlistingMem (.inr hlisting)).1 d hd
  have hcontainer : listing.isContainer := by rw [isContainer, hlisting]; rfl
  exact ⟨hvisited, _, hmem, rfl,
    (mem_parts_of_listing hcontainer).2 (mem_parts_of_isVisited hd hvisited)⟩

theorem Formed.document_cases (hroot : root.Formed) (ht : node id .objectLiteral span cs ∈ root.nodes)
    (hno : ∀ e ∈ cs.flatMap subtrees, e.isOf .compFor = false) :
    cs = [] ∨ ∃ i sp first rest, cs = [node i .dictOrSet sp (first :: rest)] ∧
      ((∀ e ∈ first :: rest, e.rule? = some .keyValue) ∨ ∀ e ∈ first :: rest, e.rule? = some .test) := by
  cases cs with
  | nil => exact .inl rfl
  | cons listing rest =>
    obtain ⟨hlisting, rfl⟩ := hroot.rule_of_listing ht rfl
    obtain ⟨i, sp, ds, rfl⟩ := exists_of_rule? hlisting
    have hmem : node i .dictOrSet sp ds ∈ root.nodes := mem_nodes_trans ht
      (mem_nodes_of_mem_children (mem_singleton_self _) (self_mem_nodes rfl))
    cases hroot.form hmem (.inl rfl) with
    | entries h => exact .inr ⟨i, sp, _, _, rfl, .inl h⟩
    | elements h => exact .inr ⟨i, sp, _, _, rfl, .inr h⟩
    | @comprehension c d _ hd =>
      have hof := hno d (by simp [subtrees, children, isNode_of_rule? hd])
      rw [isOf, hd] at hof
      cases hof
    | refused h | wrapper h | literal h | empty h | collection h | logical h | operation h => cases h
    | qualified h | items h => rcases h with h | h <;> cases h

/-- The entries of a document have its parts for keys and values. -/
theorem Formed.parts_of_entries {i k : Nat} {sp : Span} {entries : List Tree} (hroot : root.Formed)
    (ht : node i .objectLiteral span [.node k .dictOrSet sp entries] ∈ root.nodes)
    (hentries : ∀ e ∈ entries, e.rule? = some .keyValue) :
    (∀ e ∈ entries, ∃ key value, e.children = [key, value] ∧ ∀ c ∈ e.children,
      c ∈ (node i .objectLiteral span [.node k .dictOrSet sp entries]).parts ∧ c.isVisited) ∧
    ∀ c ∈ (node i .objectLiteral span [.node k .dictOrSet sp entries]).parts,
      ∃ e ∈ entries, c ∈ e.children := by
  have hpair : ∀ e ∈ entries, ∃ key value, e.children = [key, value] ∧ ∀ c ∈ e.children,
      c.isVisited := by
    intro e he
    have hmem : e ∈ root.nodes := mem_nodes_trans ht (mem_nodes_of_mem_children
      (mem_singleton_self _) (mem_nodes_of_mem_children (t := .node k .dictOrSet sp entries) he
        (self_mem_nodes (isNode_of_rule? (hentries e he)))))
    obtain ⟨key, value, hchildren, hkey, hvalue⟩ := hroot.exists_pair hmem (hentries e he)
    refine ⟨key, value, hchildren, ?_⟩
    rw [hchildren]
    exact forall_mem_cons.2 ⟨hkey, forall_mem_singleton.2 hvalue⟩
  constructor
  · intro e he
    obtain ⟨key, value, hchildren, hvisited⟩ := hpair e he
    refine ⟨key, value, hchildren, fun c hc => ⟨?_, hvisited c hc⟩⟩
    exact mem_parts_of_entry (mem_singleton_self _) rfl he (hentries e he) hc (hvisited c hc)
  · intro c hc
    rw [mem_parts_of_listing rfl] at hc
    obtain ⟨e, he, hc⟩ := mem_parts.1 hc
    have hcontainer : e.isContainer := by rw [isContainer, hentries e he]; rfl
    rw [if_pos hcontainer] at hc
    obtain ⟨key, value, -, hvisited⟩ := hpair e he
    obtain ⟨d, hd, hc⟩ := mem_parts.1 hc
    rw [isContainer_of_isVisited (hvisited d hd)] at hc
    exact ⟨e, he, hc.2 ▸ hd⟩

end Tree

namespace Shape

variable {root t : Tree}

section Collected

variable (hroot : root.Formed) (ht : t ∈ root.nodes)

include hroot ht

theorem entriesAll_of_listing {listing : Tree} {id : Nat} {span : Span} {rest : List Tree}
    (hmem : .node id .objectLiteral span (listing :: rest) ∈ t.nodes)
    (hkeys : ∀ d ∈ listing.children, d.isNode → d.isOf .keyValue)
    (hvalues : ∀ d ∈ listing.children, ∀ c ∈ d.children, t.Collects c → (ofTree c).All t.Collects) :
    EntriesAll t.Collects (entriesOf listing.children) := by
  obtain ⟨hlisting, rfl⟩ := hroot.rule_of_listing (Tree.mem_nodes_trans ht hmem) rfl
  refine entriesAll_iff.2 fun e he => ?_
  obtain ⟨d, hd, value, more, hchildren, hvalue⟩ := mem_entriesOf.1 he
  have hcollects : ∀ c ∈ d.children, t.Collects c := fun c hc =>
    hroot.collects_of_entry ht hmem hlisting (hkeys d hd) hd hc
  have hmemValue : value ∈ d.children := hchildren ▸ .tail _ (.head _)
  exact ⟨hcollects e.1 (hchildren ▸ .head _),
    hvalue ▸ hvalues d hd value hmemValue (hcollects value hmemValue)⟩

/-- The nodes of a shape stand in documents and arrays, if the first node above does. -/
theorem Sees.all {top x : Tree} {s : Shape} (h : Sees top x s) (htop : t.Collects top)
    (hx : x.nodes ⊆ t.nodes) : s.All t.Collects := by
  have hnodes : ∀ {c : Tree}, t.Collects c → c.nodes ⊆ t.nodes := fun hc _ hu =>
    Tree.mem_nodes_trans hc.mem_nodes.1 hu
  induction h with
  | scalar => exact htop
  | document listing hkeys _ _ ih =>
    refine ⟨htop, entriesAll_of_listing hroot ht (hx (Tree.self_mem_nodes rfl)) hkeys ?_⟩
    exact fun d hd c hc hcollects => ih d hd c hc hcollects (hnodes hcollects)
  | array listing _ ih =>
    refine ⟨htop, itemsAll_iff.2 fun i hi => ?_⟩
    obtain ⟨d, hd, -, rfl⟩ := mem_itemsOf.1 hi
    have hmem := hx (Tree.self_mem_nodes rfl)
    obtain ⟨hlisting, rfl⟩ := hroot.rule_of_listing (Tree.mem_nodes_trans ht hmem) rfl
    have hd' := hroot.collects_of_item ht hmem hlisting hd
    exact ih d hd hd' (hnodes hd')
  | empty => exact ⟨htop, trivial⟩
  | pass _ _ ih =>
    exact ih htop fun u hu => hx (Tree.mem_nodes_of_mem_children (mem_singleton_self _) hu)

/-- The keys and values of a document stand in it or in documents and arrays below. -/
theorem Sees.entriesAll {top x : Tree} {s : Shape} (h : Sees top x s) (hof : x.isOf .objectLiteral)
    (hx : x.nodes ⊆ t.nodes) : EntriesAll t.Collects s.entries := by
  cases h with
  | document listing hkeys _ hvalues =>
    refine entriesAll_of_listing hroot ht (hx (Tree.self_mem_nodes rfl)) hkeys ?_
    intro d hd c hc hcollects
    exact (hvalues d hd c hc).all hroot ht hcollects fun _ hu =>
      Tree.mem_nodes_trans hcollects.mem_nodes.1 hu
  | pass hcategory =>
    obtain rfl := Tree.rule_of_isOf hof
    cases hcategory
  | scalar | array | empty => trivial

end Collected

end Shape

/-! ## Nodes that are looked through -/

namespace Tree

variable {root t core : Tree} {setting : Setting} {queries : Prop} {passed : List Tree}

theorem passes_core (t : Tree) : ∃ passed, t.Passes passed t.core := by
  unfold Tree.core
  fun_induction skipUntil (fun _ => false) t with
  | case1 id rule span child t h ih =>
    obtain ⟨passed, hpassed⟩ := ih
    exact ⟨_, .pass (Bool.and_eq_true_iff.1 h).1 rfl hpassed⟩
  | case2 => exact ⟨_, .here _⟩
  | case3 => exact ⟨_, .here _⟩

/-- A node that a query reads can be written if the node below those that it looks through can. -/
theorem writable_of_passes (hqueries : queries) (hpasses : t.Passes passed core)
    (hlooked : ∀ passed u, t.Passes passed u → u.isPassThrough → LookedThrough root u)
    (hcontainer : core.isContainer = false) (hcore : Writable setting root queries core)
    (ht : t.isContainer = false) : Writable setting root queries t := by
  -- Nodes that only list others have no say of their own, so the claim is about their parts.
  suffices h : ∀ c, (if t.isContainer then c ∈ t.parts else c = t) →
      Writable setting root queries c from h t (by rw [ht]; rfl)
  clear ht
  induction hpasses with
  | here t =>
    intro c hc
    rw [hcontainer] at hc
    exact (show c = t from hc) ▸ hcore
  | @pass t child core passed hpass hchildren _ ih =>
    have hparts : ∀ c ∈ t.parts, Writable setting root queries c := by
      intro c hc
      obtain ⟨d, hd, hc⟩ := mem_parts.1 hc
      rw [hchildren] at hd
      obtain rfl := mem_singleton.1 hd
      refine ih (fun passed u hu => hlooked _ u (.pass hpass hchildren hu)) hcontainer hcore c ?_
      split at hc
      · rename_i hd
        rwa [if_pos hd]
      · rename_i hd
        rw [if_neg hd]
        exact hc.2
    intro c hc
    split at hc
    · exact hparts c hc
    · rw [hc]
      exact .intro (fun hno => absurd ⟨hqueries, hlooked _ t (.here t) hpass⟩ hno)
        fun c hc _ => hparts c hc

end Tree

/-! ## Shapes of nodes -/

namespace Shape

variable {root t : Tree} {setting : Setting} {queries : Prop} {context : String} {s : Shape}

/-- A document or an array is seen below nodes that are looked through. -/
theorem Sees.exists_listing {top x : Tree} (h : Sees top x s) (hs : ∀ t, s ≠ .scalar t) :
    ∃ passed core, x.Passes passed core ∧ core.isListing ∧ Sees top core s := by
  induction h with
  | scalar => exact absurd rfl (hs _)
  | document listing hkeys hne hvalues => exact ⟨_, _, .here _, rfl, .document listing hkeys hne hvalues⟩
  | array listing hitems => exact ⟨_, _, .here _, rfl, .array listing hitems⟩
  | empty => exact ⟨_, _, .here _, rfl, .empty⟩
  | @pass _ child _ _ _ s hcategory hchild ih =>
    obtain ⟨passed, core, hpasses, hlisting, hcore⟩ := ih hs
    have hnode : child.isNode := by
      cases child with
      | leaf =>
        cases hchild
        exact absurd rfl (hs _)
      | node => rfl
    refine ⟨_, core, .pass ?_ rfl hpasses, hlisting, hcore⟩
    rw [Tree.isPassThrough, hnode, hcategory]
    rfl

theorem Sees.eq_ofTree {top x : Tree} (h : Sees top x s) :
    (∀ e ∈ s.entries, e.2 = ofTree e.2.tree) ∧ ∀ i ∈ s.items, i = ofTree i.tree := by
  induction h with
  | document =>
    refine ⟨fun e he => ?_, forall_mem_nil _⟩
    obtain ⟨_, _, value, _, _, hvalue⟩ := mem_entriesOf.1 he
    rw [hvalue, tree_ofTree]
  | array =>
    refine ⟨forall_mem_nil _, fun i hi => ?_⟩
    obtain ⟨d, -, -, rfl⟩ := mem_itemsOf.1 hi
    rw [tree_ofTree]
  | pass _ _ ih => exact ih
  | scalar | empty => exact ⟨forall_mem_nil _, forall_mem_nil _⟩

end Shape

namespace Tree.Formed

variable {root core x y : Tree}

theorem isCategory_of_isListing {id : Nat} {rule : Rule} {span : Span} {cs : List Tree}
    (h : (node id rule span cs).isListing) : rule.isCategory := by
  rcases Bool.or_eq_true_iff.1 h with h | h
  all_goals
    rw [rule_of_isOf h]
    rfl

/-- A document that a query sees holds pairs of keys and values. -/
theorem entries_of_document (hroot : root.Formed) (hmem : core ∈ root.nodes) (hlisting : core.isListing)
    {entries : List (Tree × Shape)} (h : Shape.Sees x core (.document y entries)) :
    ∃ id span i sp es, core = .node id .objectLiteral span [.node i .dictOrSet sp es] ∧
      (∀ e ∈ es, e.rule? = some .keyValue) ∧ entries = Shape.entriesOf es := by
  cases h with
  | @document _ id span listing rest hkeys hne =>
    obtain ⟨hrule, rfl⟩ := hroot.rule_of_listing hmem rfl
    obtain ⟨i, sp, es, rfl⟩ := exists_of_rule? hrule
    refine ⟨id, span, i, sp, es, rfl, ?_, rfl⟩
    replace hkeys : ∀ e ∈ es, e.isNode → e.rule? = some .keyValue := fun e he hnode =>
      beq_iff_eq.1 (hkeys e he hnode)
    have hno : ∀ e ∈ [node i .dictOrSet sp es].flatMap subtrees, e.isOf .compFor = false := by
      intro e he
      rw [flatMap_cons, flatMap_nil, append_nil] at he
      obtain ⟨he, hnode⟩ := mem_filter.1 he
      rw [isOf, hkeys e he hnode]
      rfl
    rcases hroot.document_cases hmem hno with hnil | ⟨_, _, first, rest, heq, hkind⟩
    · cases hnil
    · cases heq
      rcases hkind with hkind | hkind
      · exact hkind
      · exact fun e he => hkeys e he (isNode_of_rule? (hkind e he))
  | pass hcategory => exact absurd (isCategory_of_isListing hlisting) (by rw [hcategory]; decide)

/-- An array that a query sees has its items for parts. -/
theorem parts_of_array (hroot : root.Formed) (hmem : core ∈ root.nodes) (hlisting : core.isListing)
    {items : List Shape} (h : Shape.Sees x core (.array y items)) :
    ∃ id span cs, core = .node id .arrayLiteral span cs ∧
      ∀ c ∈ core.parts, ∃ i ∈ items, i.tree = c := by
  cases h with
  | array listing =>
    refine ⟨_, _, _, rfl, fun c hc => ?_⟩
    obtain ⟨hrule, rfl⟩ := hroot.rule_of_listing hmem rfl
    have hlistingMem : listing ∈ root.nodes := mem_nodes_trans hmem
      (mem_nodes_of_mem_children (mem_singleton_self _) (self_mem_nodes (isNode_of_rule? hrule)))
    rw [mem_parts_of_listing (by rw [isContainer, hrule]; rfl),
      (hroot.parts_of_items hlistingMem (.inr hrule)).2] at hc
    obtain ⟨hc, hnode⟩ := mem_filter.1 hc
    exact ⟨_, Shape.mem_itemsOf.2 ⟨c, hc, hnode, rfl⟩, Shape.tree_ofTree c⟩
  | empty => exact ⟨_, _, _, rfl, forall_mem_nil _⟩
  | pass hcategory => exact absurd (isCategory_of_isListing hlisting) (by rw [hcategory]; decide)

end Tree.Formed

namespace Shape

variable {root t : Tree} {setting : Setting} {queries : Prop} {context : String} {s : Shape}

section Documents

variable (hroot : root.Formed) (ht : t ∈ root.nodes) (hof : t.isOf .objectLiteral)

theorem Sees.items_eq_nil {top x : Tree} (h : Sees top x s) (hof : x.isOf .objectLiteral) :
    s.items = [] := by
  cases h with
  | pass hcategory =>
    obtain rfl := Tree.rule_of_isOf hof
    cases hcategory
  | array | empty => cases hof
  | scalar | document => rfl

include hof

theorem items_ofTree : (ofTree t).items = [] := (sees_ofTree t).items_eq_nil hof

include hroot ht

theorem entriesAll_ofTree : EntriesAll t.Collects (ofTree t).entries :=
  (sees_ofTree t).entriesAll hroot ht hof (Subset.refl _)

/-- What a query looks into is the document itself, or stands in documents and arrays below it. -/
theorem Below.shape_of (h : (ofTree t).Below context s) :
    s = ofTree s.tree ∧ (s = ofTree t ∨ s.All t.Collects) := by
  have hentries := entriesAll_iff.1 (entriesAll_ofTree hroot ht hof)
  have hentry : ∀ {s : Shape}, s = ofTree s.tree → (s = ofTree t ∨ s.All t.Collects) →
      ∀ e ∈ s.entries, e.2 = ofTree e.2.tree ∧ (e.2 = ofTree t ∨ e.2.All t.Collects) := by
    intro s hs hall e he
    rw [hs] at he
    refine ⟨(sees_ofTree _).eq_ofTree.1 e he, .inr ?_⟩
    rw [← hs] at he
    rcases hall with rfl | hall
    · exact (hentries e he).2
    · exact (hall.entries e he).2
  induction h with
  | top => exact ⟨by rw [tree_ofTree], .inl rfl⟩
  | entry _ he _ _ ih => exact hentry ih.1 ih.2 _ he
  | facet _ he ih => exact hentry ih.1 ih.2 _ he
  | @item context s i _ hi ih =>
    obtain ⟨hs, hall⟩ := ih
    rcases hall with rfl | hall
    · rw [items_ofTree hof] at hi
      cases hi
    · refine ⟨?_, .inr (hall.items i hi)⟩
      rw [hs] at hi
      exact (sees_ofTree _).eq_ofTree.2 i hi

theorem Below.collects (h : (ofTree t).Below context s) :
    (∀ e ∈ s.entries, t.Collects e.1 ∧ t.Collects e.2.tree) ∧ ∀ i ∈ s.items, t.Collects i.tree := by
  rcases (h.shape_of hroot ht hof).2 with rfl | hall
  · rw [items_ofTree hof]
    refine ⟨fun e he => ?_, forall_mem_nil _⟩
    obtain ⟨hkey, hvalue⟩ := entriesAll_iff.1 (entriesAll_ofTree hroot ht hof) e he
    exact ⟨hkey, hvalue.tree⟩
  · exact ⟨fun e he => ⟨(hall.entries e he).1, (hall.entries e he).2.tree⟩,
      fun i hi => (hall.items i hi).tree⟩

theorem Converts.collects {x : Tree} (h : (ofTree t).Converts x) : t.Collects x := by
  cases h with
  | value h he | field h he => exact ((h.collects hroot ht hof).1 _ he).2
  | coordinate h hi => exact (h.collects hroot ht hof).2 _ hi

omit ht hof in
theorem exists_document_of_passedOver (h : Tree.PassedOver root t) :
    ∃ d ∈ root.nodes, d.isOf .objectLiteral ∧ d.Collects t := by
  obtain ⟨d, hd, hof, context, s, e, hbelow, he, -, rfl⟩ := h
  exact ⟨d, hd, hof, ((hbelow.collects hroot hd hof).1 e he).2⟩

theorem Below.tree_of (h : (ofTree t).Below context s) : s.tree = t ∨ t.Collects s.tree :=
  (h.shape_of hroot ht hof).2.imp (fun heq => by rw [heq, tree_ofTree]) All.tree

variable (hqueries : queries)

include hqueries

omit hroot in
/-- A node that a query reads can be written if its core can. -/
theorem Reads.writable {x core : Tree} {passed : List Tree} (h : (ofTree t).Reads x)
    (hx : x = t ∨ t.Collects x) (hpasses : x.Passes passed core) (hcontainer : core.isContainer = false)
    (hcore : core ∈ root.nodes → Tree.Writable setting root queries core) :
    Tree.Writable setting root queries x := by
  have hxnode : x ∈ root.nodes ∧ x.isNode ∧ x.isContainer = false := by
    rcases hx with rfl | hx
    · refine ⟨ht, ?_, ?_⟩
      · exact Tree.isNode_of_rule? (beq_iff_eq.1 hof)
      · rw [Tree.isContainer, beq_iff_eq.1 hof]
        rfl
    · exact ⟨Tree.mem_nodes_trans ht hx.mem_nodes.1, Tree.isNode_of_isVisited hx.1,
        Tree.isContainer_of_isVisited hx.1⟩
  obtain ⟨hmem, hnode, hxcontainer⟩ := hxnode
  refine Tree.writable_of_passes hqueries hpasses (fun passed u hu hpass => ?_) hcontainer
    (hcore (Tree.mem_nodes_trans hmem (hpasses.spine.1.mem_nodes hnode))) hxcontainer
  exact ⟨hpass, t, ht, hof, x, passed, h, hu⟩

theorem writable_key {x : Tree} (h : (ofTree t).Reads x) (hx : t.Collects x)
    (hkey : x.stringKey?.isSome) : Tree.Writable setting root queries x := by
  have hstring : x.core.isOf .stringLiteral := by
    unfold Tree.stringKey? at hkey
    dsimp only at hkey
    split at hkey
    · assumption
    · cases hkey
  obtain ⟨passed, hpasses⟩ := x.passes_core
  refine h.writable ht hof hqueries (.inr hx) hpasses ?_ fun hmem => ?_
  · rw [Tree.isContainer, beq_iff_eq.1 hstring]
    rfl
  · generalize x.core = core at hstring hmem
    obtain ⟨id, span, cs, rfl⟩ := Tree.exists_of_isOf hstring
    refine .intro (fun _ => ⟨rfl, fun h => absurd rfl h⟩) fun c hc => ?_
    rw [Tree.parts_eq_nil (hroot.form hmem (.inl rfl)).hasForm] at hc
    cases hc

theorem writable_flag {x : Tree} (h : (ofTree t).Reads x) (hx : t.Collects x)
    (hmarked : setting.target.Marked) (hflag : x.core.isOf .booleanLiteral) :
    Tree.Writable setting root queries x := by
  obtain ⟨passed, hpasses⟩ := x.passes_core
  refine h.writable ht hof hqueries (.inr hx) hpasses ?_ fun hmem => ?_
  · rw [Tree.isContainer, beq_iff_eq.1 hflag]
    rfl
  · generalize x.core = core at hflag hmem
    obtain ⟨id, span, cs, rfl⟩ := Tree.exists_of_isOf hflag
    cases hroot.form hmem (.inl rfl) with
    | literal hkind =>
      refine .intro (fun _ => (Renderer.admitted_literal_iff hkind).2 (hmarked.flag _)) fun c hc => ?_
      rw [Tree.parts_eq_nil (forall_mem_singleton.2 rfl)] at hc
      cases hc
    | refused h | wrapper h | empty h | collection h | logical h | operation h => cases h
    | qualified h | items h => rcases h with h | h <;> cases h

/-- A document that a query looks into can be written if its keys and values can, but for the values
that are passed over. -/
theorem writable_document {x : Tree} {entries : List (Tree × Shape)}
    (h : (ofTree t).Below context (.document x entries))
    (hentries : ∀ e ∈ entries, Tree.Writable setting root queries e.1 ∧
      (Tree.Writable setting root queries e.2.tree ∨ Drops context entries e)) :
    Tree.Writable setting root queries x := by
  have hshape : .document x entries = ofTree x := (h.shape_of hroot ht hof).1
  obtain ⟨passed, core, hpasses, hlisting, hcore⟩ :=
    Sees.exists_listing (hshape ▸ sees_ofTree x) (by rintro _ ⟨⟩)
  refine (Reads.document h).writable ht hof hqueries (h.tree_of hroot ht hof) hpasses
    (Tree.isContainer_of_isListing hlisting) fun hmem => ?_
  obtain ⟨id, span, i, sp, es, rfl, hkeys, rfl⟩ := hroot.entries_of_document hmem hlisting hcore
  refine .intro (fun _ => ⟨rfl, fun h => absurd rfl h⟩) fun c hc hno => ?_
  obtain ⟨hpairs, hparts⟩ := hroot.parts_of_entries hmem hkeys
  obtain ⟨e, he, hce⟩ := hparts c hc
  obtain ⟨key, value, hchildren, -⟩ := hpairs e he
  have hmember : (key, ofTree value) ∈ entriesOf es :=
    mem_entriesOf.2 ⟨e, he, value, [], hchildren, rfl⟩
  obtain ⟨hkey, hvalue⟩ := hentries _ hmember
  rw [hchildren] at hce
  rcases mem_pair.1 hce with rfl | rfl
  · exact hkey
  · rw [tree_ofTree] at hvalue
    refine hvalue.resolve_right fun hdrops => hno ⟨hqueries, t, ht, hof, ?_⟩
    exact ⟨context, _, _, h, hmember, hdrops, tree_ofTree c⟩

/-- An array that a query looks into can be written if its items can. -/
theorem writable_array {x : Tree} {items : List Shape}
    (h : (ofTree t).Below context (.array x items))
    (hitems : ∀ i ∈ items, Tree.Writable setting root queries i.tree) :
    Tree.Writable setting root queries x := by
  have hshape : .array x items = ofTree x := (h.shape_of hroot ht hof).1
  obtain ⟨passed, core, hpasses, hlisting, hcore⟩ :=
    Sees.exists_listing (hshape ▸ sees_ofTree x) (by rintro _ ⟨⟩)
  refine (Reads.array h).writable ht hof hqueries (h.tree_of hroot ht hof) hpasses
    (Tree.isContainer_of_isListing hlisting) fun hmem => ?_
  obtain ⟨id, span, cs, rfl, hparts⟩ := hroot.parts_of_array hmem hlisting hcore
  refine .intro (fun _ => ⟨rfl, fun h => absurd rfl h⟩) fun c hc _ => ?_
  obtain ⟨i, hi, rfl⟩ := hparts c hc
  exact hitems i hi

end Documents

end Shape

end QueryScribe
