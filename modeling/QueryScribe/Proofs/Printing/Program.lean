import QueryScribe.Proofs.Printing.Following

/-!
# Printed programs are read

The text of a printed statement is read to a program of this statement, apart from the numbers of nodes
and where they stand (`parse_of_printed`). What is read is numbered in order, so two readings that are
the same apart from numbers and places have the same numbers (`Tree.unplaced_of_parse`).
-/

namespace QueryScribe

namespace Tree

/-! ## Numbers -/

mutual

theorem bare_numberFrom (n : Nat) : (t : Tree) → (t.numberFrom n).1.bare = t.bare
  | leaf _ _ => rfl
  | node _ _ _ cs => by rw [numberFrom, bare, bare, bareIn_numberFromIn (n + 1) cs]

theorem bareIn_numberFromIn (n : Nat) : (ts : List Tree) → bareIn (numberFromIn n ts).1 = bareIn ts
  | [] => rfl
  | t :: ts => by
    rw [numberFromIn, bareIn, bareIn, bare_numberFrom n t, bareIn_numberFromIn _ ts]

end

mutual

theorem bare_unplaced : (t : Tree) → t.unplaced.bare = t.bare
  | leaf _ _ => rfl
  | node _ _ _ cs => by rw [unplaced, bare, bare, bareIn_unplacedIn cs]

theorem bareIn_unplacedIn : (ts : List Tree) → bareIn (unplacedIn ts) = bareIn ts
  | [] => rfl
  | t :: ts => by rw [unplacedIn, bareIn, bareIn, bare_unplaced t, bareIn_unplacedIn ts]

end

mutual

theorem numberFrom_bare (n : Nat) : (t : Tree) →
    t.bare.numberFrom n = ((t.numberFrom n).1.unplaced, (t.numberFrom n).2)
  | leaf _ _ => rfl
  | node _ _ _ cs => by
    rw [bare, numberFrom, numberFrom, numberFromIn_bareIn (n + 1) cs]
    rfl

theorem numberFromIn_bareIn (n : Nat) : (ts : List Tree) →
    numberFromIn n (bareIn ts) = (unplacedIn (numberFromIn n ts).1, (numberFromIn n ts).2)
  | [] => rfl
  | t :: ts => by
    rw [bareIn, numberFromIn, numberFrom_bare n t]
    dsimp only
    rw [numberFromIn_bareIn _ ts]
    rfl

end

theorem unplaced_of_parse {source : String} {t : Tree} (h : parse source = .ok t) :
    t.unplaced = (t.bare.numberFrom 0).1 := by
  obtain ⟨s, -, rfl⟩ := exists_of_parse h
  rw [bare_numberFrom, numberFrom_bare]

end Tree

/-! ## Programs -/

theorem Written.program {gs : List Glyph} {t : Tree} (h : Written (.category (.rule .stmt)) gs [t]) :
    Derives [.category (.rule .fileInput)] (tokensOf gs) [.node 0 .fileInput ⟨0, 0⟩ [t]] := by
  have hline : (⟨.run .lines, [.category (.rule .stmt)], none⟩ : Production) ∈
      (Category.run .lines).productions := by decide
  have hprogram : (⟨.rule .fileInput, [.category (.run .lines)], some .fileInput⟩ : Production) ∈
      (Category.rule .fileInput).productions := by decide
  have hlines := h.derives.of_production (Production.mem_productions hline) nofun nofun
  exact hlines.of_production (Production.mem_productions hprogram) nofun nofun

theorem parse_of_printed {text : String} {s : Tree} (hfollows : s.Follows) (hset : s.IsSet)
    (hrule : s.rule? = some .stmt) (htext : normalize text = textOf s.printed) :
    ∃ t, parse text = .ok t ∧ t.bare = .node 0 .fileInput ⟨0, 0⟩ [s.bare] := by
  have hwritten : Written (.category (.rule .stmt)) s.printed [s.bare] :=
    (hfollows.isWritten hset .stmt hrule).2
  have hopen : openBrackets (tokensOf s.printed) = 0 := hwritten.brackets 0
  obtain ⟨tree, hparse, htree⟩ := parse_of_spaced htext (hwritten.spaced [] rfl) hopen hwritten.program
  refine ⟨_, hparse, ?_⟩
  calc (tree.numberFrom 0).1.bare
    _ = tree.unplaced.bare := by rw [Tree.bare_numberFrom, Tree.bare_unplaced]
    _ = (Tree.node 0 .fileInput ⟨0, 0⟩ [s.bare]).bare := by rw [htree]
    _ = .node 0 .fileInput ⟨0, 0⟩ [s.bare] := by
      rw [Tree.bare_node, List.map_singleton, Tree.bare_bare]

end QueryScribe
