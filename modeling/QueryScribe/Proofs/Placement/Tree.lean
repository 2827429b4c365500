import QueryScribe.Syntax.Tree

/-!
# Trees apart from places

Where its nodes stand is no part of what a tree means. `Tree.unplaced` forgets the places.
-/

namespace QueryScribe

/-- A token apart from where it stands. -/
def Token.unplaced (t : Token) : Token := { t with span := ⟨0, 0⟩ }

@[simp]
theorem Token.kind_unplaced (t : Token) : t.unplaced.kind = t.kind := rfl

@[simp]
theorem Token.text_unplaced (t : Token) : t.unplaced.text = t.text := rfl

namespace Tree

mutual

/-- A tree apart from where its nodes stand. -/
def unplaced : Tree → Tree
  | leaf id token => leaf id token.unplaced
  | node id rule _ children => node id rule ⟨0, 0⟩ (unplacedIn children)

/-- Trees apart from where their nodes stand. -/
def unplacedIn : List Tree → List Tree
  | [] => []
  | t :: ts => unplaced t :: unplacedIn ts

end

theorem unplacedIn_eq_map (ts : List Tree) : unplacedIn ts = ts.map unplaced := by
  induction ts with
  | nil => rfl
  | cons t ts ih => rw [unplacedIn, List.map_cons, ih]

@[simp]
theorem unplaced_leaf (id : Nat) (token : Token) :
    (leaf id token).unplaced = leaf id token.unplaced := rfl

@[simp]
theorem unplaced_node (id : Nat) (rule : Rule) (span : Span) (children : List Tree) :
    (node id rule span children).unplaced = node id rule ⟨0, 0⟩ (children.map unplaced) := by
  rw [unplaced, unplacedIn_eq_map]

end Tree

end QueryScribe
