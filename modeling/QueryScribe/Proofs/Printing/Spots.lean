import QueryScribe.Proofs.Reader.Written

/-!
# Spacing of productions

A production is written symbol by symbol, with blanks in between. Whether two symbols may stand side by
side is seen from what the text of a symbol starts with (`Lead`) and from what may stand after it
(`Spot.admits`). If all neighbours of a production may stand side by side (`fits`), texts that are
written for its symbols make a text that is written for its category (`Fills.written`).
-/

namespace QueryScribe

open List

/-! ## What texts start with -/

/-- What a text starts with: a separator, an operand, or an operator. -/
inductive Lead
  | separator
  | operand
  | operator
deriving DecidableEq

/-- The first characters of such a text. -/
def Lead.Holds : Lead → Char → Prop
  | separator, d => d ∈ Lexer.separators
  | operand, d => Lexer.isGap d = false ∧ d ≠ '=' ∧ d ≠ '>'
  | operator, d => Lexer.isGap d = false

/-- Whether all that starts in one way starts in another. -/
def Lead.within (l l' : Lead) : Bool := l == l' || (l == operand && l' == operator)

theorem Lead.Holds.of_within {l l' : Lead} {d : Char} (h : l.Holds d) (hl : l.within l') :
    l'.Holds d := by
  cases l <;> cases l' <;> first | exact h | exact h.1 | cases hl

/-- What the text of a terminal starts with. -/
def Terminal.lead (k : Terminal) : Lead :=
  if k ∈ [newline, comma, semicolon, colon, rightParen, rightBracket, rightBrace] then .separator
  else if k ∈ Lexer.numberKinds ++ [trueWord, falseWord, noneWord, notWord] || k.isTight then .operand
  else .operator

/-- What the text of a symbol starts with. Runs start with what separates them from the first item. -/
def Symbol.lead : Symbol → Lead
  | .terminal k => k.lead
  | .category (.run _) => .separator
  | .category (.rule .compOp) => .operator
  | .category _ => .operand

/-! ## What may stand after a symbol -/

namespace Symbol

/-- Whether the text of a symbol ends the last line. -/
def endsLine : Symbol → Bool
  | .terminal .newline | .category (.rule .stmt) | .category (.rule .simpleStmt) => true
  | _ => false

/-- What may stand after the text of a symbol: after the last line nothing, after a category a
separator. -/
def Precedes (x : Symbol) (following : List Char) : Prop :=
  if x.endsLine then following = []
  else ∃ d ds, following = d :: ds ∧
    match x with
    | .terminal k => k.EndsBefore d
    | .category _ => d ∈ Lexer.separators

/-- What may stand after a category may stand after any symbol that ends as the category does. -/
theorem Precedes.of_category {c : Category} {following : List Char}
    (h : (Symbol.category c).Precedes following) {x : Symbol}
    (hx : x.endsLine = (Symbol.category c).endsLine) : x.Precedes following := by
  unfold Precedes at h ⊢
  rw [hx]
  split at h
  · rw [if_pos ‹_›]
    exact h
  · rw [if_neg ‹_›]
    obtain ⟨d, ds, rfl, hd⟩ := h
    refine ⟨d, ds, rfl, ?_⟩
    cases x with
    | terminal k => exact .inl hd
    | category => exact hd

/-- The number of brackets that are open after a symbol. -/
def openAfter (n : Nat) : Symbol → Nat
  | .terminal k => Token.openAfter n ⟨k, "", ⟨0, 0⟩⟩
  | .category _ => n

end Symbol

/-- A place in the text of a production: a blank or a symbol. -/
inductive Spot
  | blank
  | symbol (x : Symbol)
deriving DecidableEq

namespace Spot

/-- The symbol of a place. -/
def symbol? : Spot → Option Symbol
  | blank => none
  | symbol x => some x

/-- What the text of a place starts with. -/
def lead : Spot → Lead
  | blank => .separator
  | symbol x => x.lead

/-- What may stand after the text of a place. -/
def Precedes : Spot → List Char → Prop
  | blank, following => ∃ d ds, following = d :: ds ∧ Lexer.isGap d = false
  | symbol x, following => x.Precedes following

/-- The number of brackets that are open after a place. -/
def openAfter (n : Nat) : Spot → Nat
  | blank => n
  | symbol x => x.openAfter n

/-- Whether a place may stand right after another. -/
def admits : Spot → Spot → Bool
  | blank, s => s.lead ≠ .separator
  | symbol (.terminal k), s =>
    k ≠ .newline && (s.lead == .separator || (k.isTight && s.lead == .operand))
  | symbol x, s => !x.endsLine && s.lead == .separator

/-- A place may stand before what starts as the next one starts. -/
theorem precedes_of_admits {s s' : Spot} (h : s.admits s') {d : Char} (hd : s'.lead.Holds d)
    (ds : List Char) : s.Precedes (d :: ds) := by
  cases s with
  | blank =>
    refine ⟨d, ds, rfl, ?_⟩
    cases hlead : s'.lead <;> rw [hlead] at hd
    · simp [admits, hlead] at h
    · exact hd.1
    · exact hd
  | symbol x =>
    cases x with
    | terminal k =>
      simp only [admits, Bool.and_eq_true, Bool.or_eq_true, beq_iff_eq, decide_eq_true_eq] at h
      have hends : (Symbol.terminal k).endsLine = false := by
        cases k <;> first | rfl | exact absurd rfl h.1
      rw [Precedes, Symbol.Precedes, hends]
      refine ⟨d, ds, rfl, ?_⟩
      rcases h.2 with hlead | ⟨htight, hlead⟩ <;> rw [hlead] at hd
      · exact .inl hd
      · exact .inr ⟨htight, hd.2⟩
    | category c =>
      simp only [admits, Bool.and_eq_true, Bool.not_eq_true', beq_iff_eq] at h
      rw [Precedes, Symbol.Precedes, h.1]
      rw [h.2] at hd
      exact ⟨d, ds, rfl, hd⟩

end Spot

/-! ## Texts that are written for symbols -/

/-- Glyphs that are written for a symbol, and the trees that they make. -/
structure Written (x : Symbol) (gs : List Glyph) (trees : List Tree) : Prop where
  /-- The tokens are those of a derivation. -/
  derives : Derives [x] (tokensOf gs) trees
  /-- The tokens are found in the text. -/
  spaced : ∀ rest, x.Precedes rest → Spaced rest gs
  /-- The text starts as the symbol says. -/
  lead : ∃ d ds, textOf gs = d :: ds ∧ x.lead.Holds d
  /-- The tokens open and close brackets as the symbol says. -/
  brackets : ∀ n, (tokensOf gs).foldl Token.openAfter n = x.openAfter n

/-- Glyphs that are written for places one after the other. -/
inductive Fills : List Spot → List Glyph → List Tree → Prop
  | nil : Fills [] [] []
  | blank {spots : List Spot} {gs : List Glyph} {trees : List Tree} : Fills spots gs trees →
    Fills (.blank :: spots) (.blank :: gs) trees
  | symbol {x : Symbol} {spots : List Spot} {gs gs' : List Glyph} {trees trees' : List Tree} :
    Written x gs trees → Fills spots gs' trees' →
    Fills (.symbol x :: spots) (gs ++ gs') (trees ++ trees')

namespace Fills

variable {spots spots' : List Spot} {gs gs' : List Glyph} {trees trees' : List Tree}

theorem append (h : Fills spots gs trees) (h' : Fills spots' gs' trees') :
    Fills (spots ++ spots') (gs ++ gs') (trees ++ trees') := by
  induction h with
  | nil => exact h'
  | blank _ ih => exact .blank ih
  | symbol hx _ ih =>
    rw [append_assoc, append_assoc]
    exact .symbol hx ih

theorem derives (h : Fills spots gs trees) :
    Derives (spots.filterMap Spot.symbol?) (tokensOf gs) trees := by
  induction h with
  | nil => exact .nil
  | blank _ ih => exact ih
  | symbol hx _ ih =>
    rw [tokensOf_append]
    exact hx.derives.append ih

theorem lead {s : Spot} (h : Fills (s :: spots) gs trees) :
    ∃ d ds, textOf gs = d :: ds ∧ s.lead.Holds d := by
  cases h with
  | @blank _ gs _ _ => exact ⟨' ', textOf gs, rfl, .head _⟩
  | @symbol x _ gs gs' _ _ hx _ =>
    obtain ⟨d, ds, htext, hd⟩ := hx.lead
    exact ⟨d, ds ++ textOf gs', by rw [textOf_append, htext]; rfl, hd⟩

theorem brackets (h : Fills spots gs trees) (n : Nat) :
    (tokensOf gs).foldl Token.openAfter n = spots.foldl Spot.openAfter n := by
  induction h generalizing n with
  | nil => rfl
  | blank _ ih => exact ih n
  | symbol hx _ ih => rw [tokensOf_append, foldl_append, hx.brackets, ih]; rfl

/-- The tokens are found in the text if neighbours may stand side by side. -/
theorem spaced (h : Fills spots gs trees) (hchain : spots.IsChain (·.admits ·)) {rest : List Char}
    (hlast : ∀ s ∈ spots.getLast?, s.Precedes rest) : Spaced rest gs := by
  -- After the first place stands what the second one starts with, or `rest` if there is none.
  have hfirst : ∀ {s : Spot} {spots : List Spot} {gs : List Glyph} {trees : List Tree},
      Fills spots gs trees → (s :: spots).IsChain (·.admits ·) →
      (∀ s' ∈ (s :: spots).getLast?, s'.Precedes rest) → s.Precedes (textOf gs ++ rest) := by
    intro s spots gs trees hfills hchain hlast
    cases spots with
    | nil =>
      cases hfills
      exact hlast s rfl
    | cons s' spots =>
      obtain ⟨d, ds, htext, hd⟩ := hfills.lead
      rw [htext]
      exact Spot.precedes_of_admits (isChain_cons_cons.1 hchain).1 hd _
  induction h with
  | nil => trivial
  | @blank spots gs trees hfills ih =>
    refine ⟨hfirst hfills hchain hlast, ih hchain.of_cons fun s hs => hlast s ?_⟩
    rw [getLast?_cons, Option.mem_def.1 hs]
    rfl
  | @symbol x spots gs gs' trees trees' hx hfills ih =>
    refine (hx.spaced _ (hfirst hfills hchain hlast)).append (ih hchain.of_cons fun s hs => hlast s ?_)
    rw [getLast?_cons, Option.mem_def.1 hs]
    rfl

end Fills

/-! ## Productions that are written -/

/-- Whether brackets that are opened are closed again, where `n` are open. -/
def balanced : Nat → List Spot → Bool
  | n, [] => n = 0
  | n, .symbol (.terminal .leftParen) :: spots | n, .symbol (.terminal .leftBracket) :: spots
  | n, .symbol (.terminal .leftBrace) :: spots => balanced (n + 1) spots
  | n, .symbol (.terminal .rightParen) :: spots | n, .symbol (.terminal .rightBracket) :: spots
  | n, .symbol (.terminal .rightBrace) :: spots => 0 < n && balanced (n - 1) spots
  | n, _ :: spots => balanced n spots

/-- Where they are, as many brackets are open as before. -/
theorem foldl_openAfter_of_balanced {n : Nat} {spots : List Spot} (h : balanced n spots)
    (m : Nat) : spots.foldl Spot.openAfter (m + n) = m := by
  fun_induction balanced n spots with
  | case1 n => simpa using h
  | case2 n spots ih | case3 n spots ih | case4 n spots ih => exact ih h
  | case5 n spots ih | case6 n spots ih | case7 n spots ih =>
    rw [Bool.and_eq_true, decide_eq_true_eq] at h
    rw [foldl_cons]
    have hless : m + n - 1 = m + (n - 1) := by omega
    exact (congrArg (spots.foldl Spot.openAfter) hless).trans (ih h.2)
  | case8 n s spots h₁ h₂ h₃ h₄ h₅ h₆ ih =>
    have hsame : s.openAfter (m + n) = m + n := by
      cases s with
      | blank => rfl
      | symbol x =>
        cases x with
        | category => rfl
        | terminal k =>
          cases k
          case leftParen => exact absurd rfl h₁
          case leftBracket => exact absurd rfl h₂
          case leftBrace => exact absurd rfl h₃
          case rightParen => exact absurd rfl h₄
          case rightBracket => exact absurd rfl h₅
          case rightBrace => exact absurd rfl h₆
          all_goals rfl
    rw [foldl_cons, hsame]
    exact ih h

/-- Whether places make a text for a category. -/
def fits (c : Category) (spots : List Spot) : Bool :=
  decide (spots.IsChain (·.admits ·)) && balanced 0 spots &&
    (spots.head?.any fun s => s.lead.within (Symbol.category c).lead) &&
    spots.getLast?.any fun s => match s with
      | .blank => false
      | .symbol x => x.endsLine == (Symbol.category c).endsLine

/-- What is written for the places of a production is written for its category. -/
theorem Fills.written {p : Production} {spots : List Spot} {gs : List Glyph} {trees : List Tree}
    (h : Fills spots gs trees) (hp : p ∈ productions) (hlhs : p.lhs ≠ .source)
    (hrhs : p.rhs = spots.filterMap Spot.symbol?) (hfits : fits p.lhs spots) :
    Written (.category p.lhs) gs (p.enclose trees) := by
  simp only [fits, Bool.and_eq_true, decide_eq_true_eq] at hfits
  obtain ⟨⟨⟨hchain, hbalanced⟩, hfirst⟩, hlast⟩ := hfits
  obtain ⟨s, hs, hlead⟩ := (Option.any_eq_true _ _).1 hfirst
  obtain ⟨last, hl, hends⟩ := (Option.any_eq_true _ _).1 hlast
  obtain ⟨spots, rfl⟩ : ∃ rest, spots = s :: rest := ⟨_, eq_cons_of_mem_head? hs⟩
  constructor
  · refine .of_production hp hlhs ?_ (hrhs ▸ h.derives)
    -- The last place is one of a symbol.
    cases last with
    | blank => cases hends
    | symbol x =>
      rw [hrhs]
      exact ne_nil_of_mem (mem_filterMap.2 ⟨_, mem_of_getLast? hl, rfl⟩)
  · intro rest hrest
    refine h.spaced hchain fun s' hs' => ?_
    cases hl.symm.trans hs'
    cases last with
    | blank => cases hends
    | symbol x => exact hrest.of_category (beq_iff_eq.1 hends)
  · obtain ⟨d, ds, htext, hd⟩ := h.lead
    exact ⟨d, ds, htext, hd.of_within hlead⟩
  · intro n
    rw [h.brackets]
    exact foldl_openAfter_of_balanced hbalanced n

end QueryScribe
