import QueryScribe.Proofs.Lexeme.Spacing
import QueryScribe.Proofs.Reader.Derivation

/-!
# Written texts are read

A text that is written token by token, with blanks between tokens where they are needed, is read token
by token. `Spaced` says which tokens need what after them. If the tokens are those of a program, the text
is read to its tree (`parse_of_spaced`).
-/

namespace QueryScribe

open List

/-- A part of a text that is written: a token or one blank. -/
inductive Glyph
  | token (t : Token)
  | blank

/-- The text of a glyph. -/
def Glyph.text : Glyph → List Char
  | token t => t.text.toList
  | blank => [' ']

/-- The token of a glyph. -/
def Glyph.token? : Glyph → Option Token
  | token t => some t
  | blank => none

/-- The text of glyphs. -/
def textOf (gs : List Glyph) : List Char := gs.flatMap Glyph.text

/-- The tokens of glyphs. -/
def tokensOf (gs : List Glyph) : List Token := gs.filterMap Glyph.token?

/-- What may stand after a glyph: after a token what does not make another token of it, after a blank no
other blank. A line ends the text. -/
def Glyph.Precedes : Glyph → List Char → Prop
  | token t, following => t.Lexed ∧
    ((t.kind = .newline ∧ t.text = "\n" ∧ following = []) ∨
      (t.kind ∈ Terminal.elementary ∧ ∃ d ds, following = d :: ds ∧ t.kind.EndsBefore d))
  | blank, following => ∃ d ds, following = d :: ds ∧ Lexer.isGap d = false

/-- After each glyph stands what may stand there, where `rest` comes after all of them. -/
def Spaced (rest : List Char) : List Glyph → Prop
  | [] => True
  | g :: gs => g.Precedes (textOf gs ++ rest) ∧ Spaced rest gs

theorem textOf_append (gs gs' : List Glyph) : textOf (gs ++ gs') = textOf gs ++ textOf gs' :=
  flatMap_append

theorem tokensOf_append (gs gs' : List Glyph) :
    tokensOf (gs ++ gs') = tokensOf gs ++ tokensOf gs' :=
  filterMap_append

theorem Spaced.append {rest : List Char} {gs gs' : List Glyph} (h : Spaced (textOf gs' ++ rest) gs)
    (h' : Spaced rest gs') : Spaced rest (gs ++ gs') := by
  induction gs with
  | nil => exact h'
  | cons g gs ih =>
    refine ⟨?_, ih h.2⟩
    change g.Precedes (textOf (gs ++ gs') ++ rest)
    rw [textOf_append, append_assoc]
    exact h.1

theorem Spaced.eq_nil {gs : List Glyph} (h : Spaced [] gs) (htext : textOf gs = []) : gs = [] := by
  cases gs with
  | nil => rfl
  | cons g gs =>
    obtain ⟨hg, hgs⟩ := append_eq_nil_iff.1 (show g.text ++ textOf gs = [] from htext)
    have hprecedes := h.1
    rw [append_nil, hgs] at hprecedes
    cases g with
    | blank => cases hg
    | token t =>
      obtain ⟨-, ⟨-, hbreak, -⟩ | ⟨-, d, ds, hnil, -⟩⟩ := hprecedes
      · rw [Glyph.text, hbreak] at hg
        cases hg
      · cases hnil

/-- The tokens of glyphs that stand in a text from an offset on. -/
def placed (offset : Nat) : List Glyph → List Token
  | [] => []
  | .token t :: gs =>
    ⟨t.kind, t.text, ⟨offset, offset + t.text.length⟩⟩ :: placed (offset + t.text.length) gs
  | .blank :: gs => placed (offset + 1) gs

theorem unplaced_placed (offset : Nat) (gs : List Glyph) :
    (placed offset gs).map Token.unplaced = (tokensOf gs).map Token.unplaced := by
  fun_induction placed offset gs with
  | case1 => rfl
  | case2 offset t gs ih =>
    rw [map_cons, ih]
    rfl
  | case3 offset gs ih => exact ih

theorem Layout.step_of_ne (l : Layout) {t : Token} (ht : t.kind ≠ .newline) :
    l.step t = ([t], .ok { l with brackets := t.openAfter l.brackets }) := by
  unfold Layout.step Token.openAfter
  split
  · exact absurd ‹_› ht
  all_goals simp only [*]

theorem Layout.step_of_newline {l : Layout} {t : Token} (ht : t.kind = .newline) (htext : t.text = "\n")
    (hbrackets : l.brackets = 0) (hlevels : l.levels = []) : l.step t = ([t], .ok l) := by
  have hwidth : width (lastLine ['\n']) = 0 := by decide
  obtain ⟨brackets, levels⟩ := l
  cases hbrackets
  cases hlevels
  simp [Layout.step, ht, htext, hwidth, level, closing]

namespace Parser

theorem Feeds.accepts {t : Token} {stack last : List Frame} (h : Feeds t stack (some last)) :
    (top stack).accepts .source t.kind := by
  cases h with
  | shift hshifts => simp [State.accepts, hshifts]
  | reduce _ hp _ => simp [State.accepts, hp.complete]

/-- The reader goes through a written text if it can take the tokens. -/
theorem walks_of_spaced {gs : List Glyph} (h : Spaced [] gs) {offset : Nat} {p : Progress}
    {last : List Frame} (heats : Eats p.stack (placed offset gs) last) (hlevels : p.layout.levels = [])
    (hopen : (tokensOf gs).foldl Token.openAfter p.layout.brackets = 0) :
    ∃ q, Walks offset (textOf gs) p (placed offset gs) q ∧ q.stack = last ∧ q.layout.levels = [] := by
  induction gs generalizing offset p with
  | nil =>
    cases heats
    exact ⟨p, .nil, rfl, hlevels⟩
  | cons g gs ih =>
    obtain ⟨hprecedes, hspaced⟩ := h
    rw [append_nil] at hprecedes
    cases g with
    | blank =>
      obtain ⟨d, ds, htext, hgap⟩ := hprecedes
      obtain ⟨q, hwalks, hq⟩ := ih hspaced heats hlevels hopen
      refine ⟨q, ?_, hq⟩
      have hscan : Lexer.scan ((top p.stack).accepts .source) (textOf (.blank :: gs)) =
          some ⟨none, 1⟩ := by
        change Lexer.scan _ (' ' :: textOf gs) = _
        rw [htext]
        exact Lexer.scan_blank hgap
      exact .skip_of hscan hwalks
    | token t =>
      obtain ⟨hlexed, hkind⟩ := hprecedes
      cases heats with
      | @cons _ mid _ _ _ hfeeds heats =>
        have haccepts : (top p.stack).accepts .source t.kind := hfeeds.accepts
        have htext : textOf (.token t :: gs) = t.text.toList ++ textOf gs := rfl
        have hdrop : (textOf (.token t :: gs)).drop t.text.length = textOf gs := by
          rw [htext, ← String.length_toList, drop_left]
        have htake : String.ofList ((textOf (.token t :: gs)).take t.text.length) = t.text := by
          rw [htext, ← String.length_toList, take_left, String.ofList_toList]
        -- The token is found and put on the stack, and layout passes it on.
        have hscan : Lexer.scan ((top p.stack).accepts .source) (textOf (.token t :: gs)) =
            some ⟨some t.kind, t.text.length⟩ := by
          rw [htext]
          rcases hkind with ⟨hnewline, hbreak, hend⟩ | ⟨helementary, d, ds, hfollowing, hends⟩
          · rw [hend, hnewline, hbreak]
            exact Lexer.scan_break _ []
          · rw [hfollowing]
            exact Lexer.scan_token hlexed helementary haccepts hends ds
        let t' : Token := ⟨t.kind, t.text, ⟨offset, offset + t.text.length⟩⟩
        obtain ⟨l, hstep, hlevels', hbrackets⟩ : ∃ l, p.layout.step t' = ([t'], .ok l) ∧
            l.levels = [] ∧ l.brackets = t.openAfter p.layout.brackets := by
          rcases hkind with ⟨hnewline, hbreak, hend⟩ | ⟨helementary, -⟩
          · obtain rfl := hspaced.eq_nil hend
            have hafter : t.openAfter p.layout.brackets = p.layout.brackets := by
              simp [Token.openAfter, hnewline]
            have hclosed : p.layout.brackets = 0 := hafter.symm.trans hopen
            exact ⟨_, p.layout.step_of_newline hnewline hbreak hclosed hlevels, hlevels, hafter.symm⟩
          · have hne : t.kind ≠ .newline := by
              rintro hnewline
              exact absurd (hnewline ▸ helementary) (by decide)
            exact ⟨_, p.layout.step_of_ne (t := t') hne, hlevels, rfl⟩
        let q : Progress := { p with stack := mid, fed := some t', layout := l, seen := t'.span }
        have htakes : Takes p t' (.ok q) := by
          refine .take (q := { p with stack := mid, fed := some t' }) ?_ (by rw [hstep])
          rw [hstep]
          exact .cons hfeeds .nil
        obtain ⟨r, hwalks, hr⟩ := ih hspaced (p := q) heats hlevels' (by rw [hbrackets]; exact hopen)
        refine ⟨r, ?_, hr⟩
        have hwalks' := Walks.take_of hscan (by rw [htake]; exact htakes) (hdrop ▸ hwalks)
        rwa [htake] at hwalks'

end Parser

theorem parse_of_spaced {source : String} {gs : List Glyph} {root : Tree}
    (htext : normalize source = textOf gs) (hspaced : Spaced [] gs)
    (hopen : openBrackets (tokensOf gs) = 0)
    (hderives : Derives [.category (.rule .fileInput)] (tokensOf gs) [root]) :
    ∃ tree : Tree, parse source = .ok (tree.numberFrom 0).1 ∧ tree.unplaced = root := by
  obtain ⟨last, tree, heats, hfinishes, htree⟩ := (hderives.alike (unplaced_placed 0 gs)).finishes
  obtain ⟨q, hwalks, rfl, hlevels⟩ :=
    Parser.walks_of_spaced hspaced (p := {}) heats rfl hopen
  have hcloses : Parser.Closes q tree := by
    refine ⟨q, ?_, hfinishes⟩
    rw [Layout.finish, hlevels]
    exact .nil
  have hreads := Parser.reads_iff.2 ⟨_, q, hwalks, hcloses⟩
  rw [← htext] at hreads
  exact ⟨tree, parse_of_reads hreads, (singleton_inj.1 htree).symm⟩

end QueryScribe
