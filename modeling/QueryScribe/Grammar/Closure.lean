import QueryScribe.Grammar.Analysis

/-!
# Closure of the tables

The sets of a grammar have to satisfy the inclusions that its productions demand: what starts the
first part of a category starts the category, and what can follow a category can follow its last
part. `source_isClosed` says that the tables of the source language leave nothing out.
-/

namespace QueryScribe.Analysis

variable (a : Analysis)

/-- Whether all members of `s` are members of `t`. -/
def isSubset (s t : Nat) : Bool := s ||| t == t

/-- The terminals with which a symbol can start. -/
def startersOf : Symbol → Nat
  | .terminal t => 1 <<< t.ctorIdx
  | .category c => a.starters.getD c.code 0

/-- What starts the next symbol follows a category, and what follows the production's category
follows the last one in it. -/
def followersInclude (lhs : Category) : List Symbol → Bool
  | [] => true
  | .terminal _ :: rest => followersInclude lhs rest
  | [.category c] => isSubset (a.followers.getD lhs.code 0) (a.followers.getD c.code 0)
  | .category c :: x :: rest =>
    isSubset (a.startersOf x) (a.followers.getD c.code 0) && followersInclude lhs (x :: rest)

/-- What starts the first symbol of a production starts its category, and the corners of that
symbol are corners of the category. -/
def startersInclude (lhs : Category) : List Symbol → Bool
  | [] => true
  | x :: _ =>
    isSubset (a.startersOf x) (a.starters.getD lhs.code 0) &&
      match x with
      | .terminal _ => true
      | .category c => isSubset (a.corners.getD c.code 0) (a.corners.getD lhs.code 0)

/-- Whether the sets satisfy what a production demands of them. -/
def allows (p : Production) : Bool :=
  (a.corners.getD p.lhs.code 0).testBit p.lhs.code && a.startersInclude p.lhs p.rhs &&
    a.followersInclude p.lhs p.rhs

/-- Whether the sets satisfy what all productions demand of them. The end of the input follows the
source. -/
def isClosed (ps : List Production) : Bool :=
  a.follows .source .endOfInput && ps.all a.allows

/-- The tables of the source language leave nothing out. -/
theorem source_isClosed : source.isClosed productions = true := by decide +kernel

end QueryScribe.Analysis
