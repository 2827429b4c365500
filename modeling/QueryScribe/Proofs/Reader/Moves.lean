import QueryScribe.Syntax.Parser

/-!
# The moves of the reader

The reader is described here without bounds. A token is put on the stack as soon as the state on top
goes on with it; before that, complete productions take their parts. Each such move has to find what
it needs: the parts of the production on the stack, and below them a state that knows the category.
A lexeme is never empty. `Reads` says that a text is read in this way, to a tree or to a fault. There
is at most one way (`Reads.unique`).
-/

namespace QueryScribe

namespace Parser

/-! ## Reading without bounds -/

/-- A production is complete before a terminal: all its parts are on the stack, and the state below
them knows its category. -/
structure Reduces (t : Terminal) (stack : List Frame) (p : Production) : Prop where
  complete : (top stack).reduction? .source t = some p
  parts : p.rhs.length ≤ stack.length
  leads : (top (stack.drop p.rhs.length)).next .source (.category p.lhs) ≠ []

/-- How a token is put on a stack, or refused because there is nothing to do with it. -/
inductive Feeds (t : Token) : List Frame → Option (List Frame) → Prop
  | shift {stack : List Frame} : (top stack).shifts .source t.kind = true →
    Feeds t stack (some (⟨(top stack).next .source (.terminal t.kind), .ofToken t⟩ :: stack))
  | reduce {stack : List Frame} {p : Production} {result : Option (List Frame)} :
    (top stack).shifts .source t.kind = false → Reduces t.kind stack p →
    Feeds t (Parser.reduce .source p stack) result → Feeds t stack result
  | refuse {stack : List Frame} : (top stack).shifts .source t.kind = false →
    (top stack).reduction? .source t.kind = none → Feeds t stack none

/-- How the tree of a whole source is found, or the end is refused. -/
inductive Finishes : List Frame → Option Tree → Prop
  | accept {f : Frame} {tree : Tree} : f.state.reduction? .source .endOfInput = some .start →
    f.fragment.trees = [tree] → Finishes [f] (some tree)
  | reduce {stack : List Frame} {p : Production} {result : Option Tree} : p.lhs ≠ .source →
    Reduces .endOfInput stack p → Finishes (Parser.reduce .source p stack) result →
    Finishes stack result
  | refuse {stack : List Frame} : (top stack).reduction? .source .endOfInput = none →
    Finishes stack none

/-- How tokens are put on the stack one after the other. -/
inductive FeedsAll : Progress → List Token → Except SyntaxFault Progress → Prop
  | nil {p : Progress} : FeedsAll p [] (.ok p)
  | cons {p : Progress} {t : Token} {ts : List Token} {stack : List Frame}
    {result : Except SyntaxFault Progress} : Feeds t p.stack (some stack) →
    FeedsAll { p with stack := stack, fed := some t } ts result → FeedsAll p (t :: ts) result
  | refuse {p : Progress} {t : Token} {ts : List Token} : Feeds t p.stack none →
    FeedsAll p (t :: ts) (.error (.token t))

/-- How a token of the text is taken: the tokens that layout gives for it are put on the stack, then
the indentation is looked at. -/
inductive Takes (p : Progress) (t : Token) : Except SyntaxFault Progress → Prop
  | take {q : Progress} {layout : Layout} : FeedsAll p (p.layout.step t).1 (.ok q) →
    (p.layout.step t).2 = .ok layout → Takes p t (.ok { q with layout := layout, seen := t.span })
  | refuse {fault : SyntaxFault} : FeedsAll p (p.layout.step t).1 (.error fault) →
    Takes p t (.error fault)
  | misplace {q : Progress} {m : IndentMismatch} : FeedsAll p (p.layout.step t).1 (.ok q) →
    (p.layout.step t).2 = .error m → Takes p t (.error (.indentation m))

/-- How the rest of a text is read from an offset, to a tree or to a fault. -/
inductive Reads : Nat → List Char → Progress → Except SyntaxFault Tree → Prop
  | finish {offset : Nat} {p q : Progress} {tree : Tree} :
    FeedsAll p (p.layout.finish p.seen) (.ok q) → Finishes q.stack (some tree) →
    Reads offset [] p (.ok tree)
  | incomplete {offset : Nat} {p q : Progress} : FeedsAll p (p.layout.finish p.seen) (.ok q) →
    Finishes q.stack none → Reads offset [] p (.error (.token (endToken q.fed)))
  | unclosed {offset : Nat} {p : Progress} {fault : SyntaxFault} :
    FeedsAll p (p.layout.finish p.seen) (.error fault) → Reads offset [] p (.error fault)
  | stray {offset : Nat} {c : Char} {cs : List Char} {p : Progress} :
    Lexer.scan ((top p.stack).accepts .source) (c :: cs) = none →
    Reads offset (c :: cs) p (.error (faultAt offset c cs))
  | skip {offset m : Nat} {c : Char} {cs : List Char} {p : Progress}
    {result : Except SyntaxFault Tree} :
    Lexer.scan ((top p.stack).accepts .source) (c :: cs) = some ⟨none, m⟩ → 0 < m →
    Reads (offset + m) ((c :: cs).drop m) p result → Reads offset (c :: cs) p result
  | take {offset m : Nat} {c : Char} {cs : List Char} {p q : Progress} {kind : Terminal}
    {result : Except SyntaxFault Tree} :
    Lexer.scan ((top p.stack).accepts .source) (c :: cs) = some ⟨some kind, m⟩ → 0 < m →
    Takes p ⟨kind, String.ofList ((c :: cs).take m), ⟨offset, offset + m⟩⟩ (.ok q) →
    Reads (offset + m) ((c :: cs).drop m) q result → Reads offset (c :: cs) p result
  | refuse {offset m : Nat} {c : Char} {cs : List Char} {p : Progress} {kind : Terminal}
    {fault : SyntaxFault} :
    Lexer.scan ((top p.stack).accepts .source) (c :: cs) = some ⟨some kind, m⟩ →
    Takes p ⟨kind, String.ofList ((c :: cs).take m), ⟨offset, offset + m⟩⟩ (.error fault) →
    Reads offset (c :: cs) p (.error fault)

/-! ## There is no choice -/

theorem Feeds.unique {t : Token} {stack : List Frame} {r r' : Option (List Frame)}
    (h : Feeds t stack r) (h' : Feeds t stack r') : r = r' := by
  induction h with
  | shift hshifts =>
    cases h' with
    | shift => rfl
    | reduce hshifts' => rw [hshifts] at hshifts'; cases hshifts'
    | refuse hshifts' => rw [hshifts] at hshifts'; cases hshifts'
  | reduce hshifts hp _ ih =>
    cases h' with
    | shift hshifts' => rw [hshifts] at hshifts'; cases hshifts'
    | reduce _ hp' hrest' =>
      have heq := hp.complete.symm.trans hp'.complete
      cases heq
      exact ih hrest'
    | refuse _ hnone => rw [hp.complete] at hnone; cases hnone
  | refuse hshifts hnone =>
    cases h' with
    | shift hshifts' => rw [hshifts] at hshifts'; cases hshifts'
    | reduce _ hp' => rw [hp'.complete] at hnone; cases hnone
    | refuse => rfl

theorem Finishes.unique {stack : List Frame} {r r' : Option Tree} (h : Finishes stack r)
    (h' : Finishes stack r') : r = r' := by
  induction h with
  | accept hstart htrees =>
    cases h' with
    | accept _ htrees' => rw [htrees] at htrees'; cases htrees'; rfl
    | reduce hlhs hp' =>
      have heq := hstart.symm.trans hp'.complete
      cases heq
      exact absurd rfl hlhs
    | refuse hnone =>
      have heq := hstart.symm.trans hnone
      cases heq
  | reduce hlhs hp _ ih =>
    cases h' with
    | accept hstart =>
      have heq := hp.complete.symm.trans hstart
      cases heq
      exact absurd rfl hlhs
    | reduce _ hp' hrest' =>
      have heq := hp.complete.symm.trans hp'.complete
      cases heq
      exact ih hrest'
    | refuse hnone => rw [hp.complete] at hnone; cases hnone
  | refuse hnone =>
    cases h' with
    | accept hstart =>
      have heq := hnone.symm.trans hstart
      cases heq
    | reduce _ hp' => rw [hp'.complete] at hnone; cases hnone
    | refuse => rfl

theorem FeedsAll.unique {p : Progress} {ts : List Token} {r r' : Except SyntaxFault Progress}
    (h : FeedsAll p ts r) (h' : FeedsAll p ts r') : r = r' := by
  induction h with
  | nil => cases h'; rfl
  | cons hfeeds _ ih =>
    cases h' with
    | cons hfeeds' hrest' =>
      cases hfeeds.unique hfeeds'
      exact ih hrest'
    | refuse hfeeds' => cases hfeeds.unique hfeeds'
  | refuse hfeeds =>
    cases h' with
    | cons hfeeds' => cases hfeeds.unique hfeeds'
    | refuse => rfl

theorem Takes.unique {p : Progress} {t : Token} {r r' : Except SyntaxFault Progress}
    (h : Takes p t r) (h' : Takes p t r') : r = r' := by
  cases h with
  | take hfeeds hlayout =>
    cases h' with
    | take hfeeds' hlayout' =>
      cases hfeeds.unique hfeeds'
      cases hlayout.symm.trans hlayout'
      rfl
    | refuse hfeeds' => cases hfeeds.unique hfeeds'
    | misplace _ hlayout' => cases hlayout.symm.trans hlayout'
  | refuse hfeeds =>
    cases h' with
    | take hfeeds' => cases hfeeds.unique hfeeds'
    | refuse hfeeds' => cases hfeeds.unique hfeeds'; rfl
    | misplace hfeeds' => cases hfeeds.unique hfeeds'
  | misplace hfeeds hlayout =>
    cases h' with
    | take _ hlayout' => cases hlayout.symm.trans hlayout'
    | refuse hfeeds' => cases hfeeds.unique hfeeds'
    | misplace _ hlayout' => cases hlayout.symm.trans hlayout'; rfl

/-- A text is read in one way. -/
theorem Reads.unique {offset : Nat} {text : List Char} {p : Progress}
    {r r' : Except SyntaxFault Tree} (h : Reads offset text p r) (h' : Reads offset text p r') :
    r = r' := by
  induction h with
  | finish hfeeds hfinishes =>
    cases h' with
    | finish hfeeds' hfinishes' =>
      cases hfeeds.unique hfeeds'
      cases hfinishes.unique hfinishes'
      rfl
    | incomplete hfeeds' hfinishes' =>
      cases hfeeds.unique hfeeds'
      cases hfinishes.unique hfinishes'
    | unclosed hfeeds' => cases hfeeds.unique hfeeds'
  | incomplete hfeeds hfinishes =>
    cases h' with
    | finish hfeeds' hfinishes' =>
      cases hfeeds.unique hfeeds'
      cases hfinishes.unique hfinishes'
    | incomplete hfeeds' => cases hfeeds.unique hfeeds'; rfl
    | unclosed hfeeds' => cases hfeeds.unique hfeeds'
  | unclosed hfeeds =>
    cases h' with
    | finish hfeeds' => cases hfeeds.unique hfeeds'
    | incomplete hfeeds' => cases hfeeds.unique hfeeds'
    | unclosed hfeeds' => cases hfeeds.unique hfeeds'; rfl
  | stray hscan =>
    cases h' with
    | stray => rfl
    | skip hscan' => cases hscan.symm.trans hscan'
    | take hscan' => cases hscan.symm.trans hscan'
    | refuse hscan' => cases hscan.symm.trans hscan'
  | skip hscan _ _ ih =>
    cases h' with
    | stray hscan' => cases hscan.symm.trans hscan'
    | skip hscan' _ hrest' => cases hscan.symm.trans hscan'; exact ih hrest'
    | take hscan' => cases hscan.symm.trans hscan'
    | refuse hscan' => cases hscan.symm.trans hscan'
  | take hscan _ htakes _ ih =>
    cases h' with
    | stray hscan' => cases hscan.symm.trans hscan'
    | skip hscan' => cases hscan.symm.trans hscan'
    | take hscan' _ htakes' hrest' =>
      cases hscan.symm.trans hscan'
      cases htakes.unique htakes'
      exact ih hrest'
    | refuse hscan' htakes' =>
      cases hscan.symm.trans hscan'
      cases htakes.unique htakes'
  | refuse hscan htakes =>
    cases h' with
    | stray hscan' => cases hscan.symm.trans hscan'
    | skip hscan' => cases hscan.symm.trans hscan'
    | take hscan' _ htakes' =>
      cases hscan.symm.trans hscan'
      cases htakes.unique htakes'
    | refuse hscan' htakes' =>
      cases hscan.symm.trans hscan'
      cases htakes.unique htakes'
      rfl

end Parser

end QueryScribe
