import QueryScribe.Grammar.Analysis

/-!
# States of the reader

A state lists the productions that are under way, each with the symbols it still expects. Where a
category is expected, the productions of its corners may begin as well; they are not listed but
found when their first symbol arrives.
-/

namespace QueryScribe

/-- A production under way and what it still expects. -/
structure Item where
  production : Production
  rest : List Symbol

/-- The productions under way at one place. -/
abbrev State := List Item

/-- The item after `x`, if `x` is what it expects. -/
def Item.advance (x : Symbol) (i : Item) : Option Item :=
  match i.rest with
  | [] => none
  | y :: rest => if x = y then some ⟨i.production, rest⟩ else none

namespace State

variable (a : Analysis)

/-- The state before the first token. -/
def initial : State := [⟨.start, Production.start.rhs⟩]

/-- The categories that can begin in a state, as bits. -/
def corners (s : State) : Nat :=
  s.foldl (fun set i =>
    match i.rest with
    | .category c :: _ => set ||| a.corners.getD c.code 0
    | _ => set) 0

/-- The state after a symbol. -/
def next (s : State) (x : Symbol) : State :=
  let corners := s.corners a
  s.filterMap (Item.advance x) ++ (a.openers.getD x.code []).filterMap fun p =>
    if corners.testBit p.lhs.code then some ⟨p, p.rhs.tail⟩ else none

/-- Whether an unfinished production goes on, or a new one begins, with a terminal. -/
def shifts (s : State) (t : Terminal) : Bool :=
  s.any fun i =>
    match i.rest with
    | [] => false
    | .terminal u :: _ => u == t
    | .category c :: _ => a.starts c t

/-- The production that is complete when a terminal comes next: one under way, or else one that
consists of nothing. -/
def reduction? (s : State) (t : Terminal) : Option Production :=
  match s.find? fun i => i.rest.isEmpty && a.follows i.production.lhs t with
  | some i => some i.production
  | none => a.empties.find? fun p => a.follows p.lhs t && (s.corners a).testBit p.lhs.code

/-- Whether something is to be done when a terminal comes next. -/
def accepts (s : State) (t : Terminal) : Bool := s.shifts a t || (s.reduction? a t).isSome

end State

end QueryScribe
