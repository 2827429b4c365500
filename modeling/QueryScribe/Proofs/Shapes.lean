import QueryScribe.Proofs.Numbering
import QueryScribe.Query.Shape

/-!
# What a query sees of a node

A query looks through nodes with one child until it comes to a document or an array, and sees the
entries or the items of it. `Shape.Sees` has a rule for each of these cases, and every node is seen
in this way (`sees_under`), so what holds of all shapes is shown by induction on it.
-/

namespace QueryScribe.Shape

open List

variable {top t : Tree} {ds : List Tree} {s : Shape}

/-- The entry that a node of a document is: its key, and the shape of its value. -/
def entry? (t : Tree) : Option (Tree × Shape) :=
  match t.children with
  | key :: value :: _ => some (key, ofTree value)
  | _ => none

theorem entriesOf_eq_filterMap : (ts : List Tree) → entriesOf ts = ts.filterMap entry?
  | [] => rfl
  | .leaf _ _ :: rest => entriesOf_eq_filterMap rest
  | .node _ _ _ [] :: rest => entriesOf_eq_filterMap rest
  | .node _ _ _ [_] :: rest => entriesOf_eq_filterMap rest
  | .node _ _ _ (key :: value :: _) :: rest =>
    congrArg ((key, ofTree value) :: ·) (entriesOf_eq_filterMap rest)

theorem entry?_eq_some {e : Tree × Shape} :
    entry? t = some e ↔ ∃ value rest, t.children = e.1 :: value :: rest ∧ e.2 = ofTree value := by
  unfold entry?
  constructor
  · intro h
    split at h
    · rename_i heq
      cases h
      exact ⟨_, _, heq, rfl⟩
    · cases h
  · rintro ⟨value, rest, heq, hvalue⟩
    rw [heq]
    exact congrArg some (Prod.ext rfl hvalue.symm)

theorem mem_entriesOf {e : Tree × Shape} : e ∈ entriesOf ds ↔
    ∃ d ∈ ds, ∃ value rest, d.children = e.1 :: value :: rest ∧ e.2 = ofTree value := by
  simp only [entriesOf_eq_filterMap, mem_filterMap, entry?_eq_some]

theorem itemsOf_eq_map (ts : List Tree) : itemsOf ts = (ts.filter (·.isNode)).map ofTree := by
  induction ts with
  | nil => rfl
  | cons t ts ih =>
    cases t with
    | leaf => exact ih
    | node => exact congrArg (_ :: ·) ih

theorem mem_itemsOf : s ∈ itemsOf ds ↔ ∃ d ∈ ds, d.isNode ∧ ofTree d = s := by
  simp only [itemsOf_eq_map, mem_map, mem_filter, and_assoc]

theorem entries_under_document (top : Tree) (id listing : Nat) (rule : Rule) (span area : Span)
    (entries rest : List Tree) :
    (under top (.node id .objectLiteral span (.node listing rule area entries :: rest))).entries =
      if entries.all fun t => !t.isNode || t.isOf .keyValue then entriesOf entries else [] := by
  simp only [under]
  split
  · cases entriesOf entries <;> rfl
  · rfl

/-- The shape that is seen of a node below pass-through nodes, the first of which is `top`. -/
inductive Sees : Tree → Tree → Shape → Prop
  | scalar (top t : Tree) : Sees top t (scalar top)
  | document {top : Tree} {id : Nat} {span : Span} (listing : Tree) {rest : List Tree} :
    (∀ d ∈ listing.children, d.isNode → d.isOf .keyValue) → entriesOf listing.children ≠ [] →
    (∀ d ∈ listing.children, ∀ c ∈ d.children, Sees c c (ofTree c)) →
    Sees top (.node id .objectLiteral span (listing :: rest))
      (document top (entriesOf listing.children))
  | array {top : Tree} {id : Nat} {span : Span} (listing : Tree) {rest : List Tree} :
    (∀ d ∈ listing.children, Sees d d (ofTree d)) →
    Sees top (.node id .arrayLiteral span (listing :: rest)) (array top (itemsOf listing.children))
  | empty {top : Tree} {id : Nat} {span : Span} :
    Sees top (.node id .arrayLiteral span []) (array top [])
  | pass {top child : Tree} {id : Nat} {rule : Rule} {span : Span} {s : Shape} :
    rule.isCategory = false → Sees top child s → Sees top (.node id rule span [child]) s

theorem sees_under (top t : Tree) : Sees top t (under top t) := by
  induction hn : t.height using Nat.strong_induction_on generalizing top t with | _ n ih => ?_
  have hbelow : ∀ s ∈ t.children, ∀ c, c.height ≤ s.height → ∀ top, Sees top c (under top c) :=
    fun s hs c hc top =>
      ih _ (hn ▸ hc.trans_lt (Tree.height_lt_of_mem_children hs)) top c rfl
  unfold under
  split
  · exact .scalar ..
  · rename_i id rule span entries _
    generalize hlisting : Tree.node id rule span entries = listing at hbelow
    obtain rfl : listing.children = entries := hlisting ▸ rfl
    split
    · rename_i hall
      split
      · exact .scalar ..
      · rename_i heq
        rw [← heq]
        refine .document listing (fun d hd hnode => ?_) (fun hnil => ?_) fun d hd c hc => ?_
        · simpa [hnode] using all_eq_true.1 hall d hd
        · cases heq.symm.trans hnil
        · exact hbelow _ (.head _) c ((Tree.height_lt_of_mem_children hc).trans
            (Tree.height_lt_of_mem_children hd)).le c
    · exact .scalar ..
  · rename_i id rule span items _
    generalize hlisting : Tree.node id rule span items = listing at hbelow
    obtain rfl : listing.children = items := hlisting ▸ rfl
    exact .array listing fun d hd => hbelow _ (.head _) d (Tree.height_lt_of_mem_children hd).le d
  · rename_i cs hne
    cases cs with
    | nil => exact .empty
    | cons listing rest =>
      cases listing with
      | leaf id token => exact .array (.leaf id token) (forall_mem_nil _)
      | node => exact absurd rfl (hne _ _ _ _ _)
  · split
    · exact .scalar ..
    · rename_i child _ _ _ hcategory
      exact .pass (Bool.eq_false_iff.2 hcategory) (hbelow child (.head _) child le_rfl top)
  · exact .scalar ..

theorem sees_ofTree (t : Tree) : Sees t t (ofTree t) := sees_under t t

theorem Sees.tree_eq (h : Sees top t s) : s.tree = top := by
  induction h with
  | pass _ _ ih => exact ih
  | _ => rfl

@[simp]
theorem tree_under (top t : Tree) : (under top t).tree = top := (sees_under top t).tree_eq

@[simp]
theorem tree_ofTree (t : Tree) : (ofTree t).tree = t := tree_under t t

end QueryScribe.Shape
