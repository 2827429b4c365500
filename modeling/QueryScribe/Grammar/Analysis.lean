import QueryScribe.Grammar.Follower

/-!
# Tables of the grammar

What a left-to-right reader has to look up: the corners, starters and followers of a category and
the productions that a symbol begins. Sets are bits of a number, by the codes of their members.
-/

namespace QueryScribe

/-- Facts about productions, by the codes of categories and symbols. -/
structure Analysis where
  /-- The terminals with which each category can start. -/
  starters : Array Nat
  /-- The terminals that can follow each category. -/
  followers : Array Nat
  /-- The categories that can start where each category is expected, itself included. -/
  corners : Array Nat
  /-- The productions that start with each symbol. -/
  openers : Array (List Production)
  /-- The productions that consist of nothing. -/
  empties : List Production

namespace Analysis

/-- The set with these members. -/
def bits (codes : List Nat) : Nat := codes.foldl (fun set i => set ||| 1 <<< i) 0

/-- The set of each category. -/
def tabulate (codes : Category → List Nat) : Array Nat :=
  (Category.all.map fun c => bits (codes c)).toArray

/-- The productions that start with the symbol of a code. -/
def openersOf (ps : List Production) (code : Nat) : List Production :=
  ps.filter fun p =>
    match p.rhs with
    | [] => false
    | x :: _ => x.code == code

/-- The facts about the grammar of the source language. -/
def source : Analysis where
  starters := tabulate fun c => c.starters.map (·.ctorIdx)
  followers := tabulate fun c => c.followers.map (·.ctorIdx)
  corners := tabulate fun c => c.corners.map (·.code)
  openers := ((List.range (Terminal.count + Category.count)).map (openersOf productions)).toArray
  empties := productions.filter (·.rhs.isEmpty)

variable (a : Analysis)

/-- Whether a category can start with a terminal. -/
def starts (c : Category) (t : Terminal) : Bool := (a.starters.getD c.code 0).testBit t.ctorIdx

/-- Whether a terminal can follow a category. -/
def follows (c : Category) (t : Terminal) : Bool := (a.followers.getD c.code 0).testBit t.ctorIdx

end Analysis

end QueryScribe
