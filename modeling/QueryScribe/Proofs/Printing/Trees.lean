import QueryScribe.Proofs.Printing.Spots

/-!
# Printed trees are read

A tree is printed rule by rule: each rule has something that opens and closes its nodes and something
that separates their children (`Affixes`). That neighbours can stand side by side and that the separators
are those of the grammar is checked once for all productions (`Production.isPrinted_of_setting`,
`Run.isPrinted_of_separator`). So a node is written for its category if its parts are written for the
symbols of a production (`written_node`), and so is a run (`written_run`).
-/

namespace QueryScribe

open List

open Production Symbol Terminal QueryScribe.Tree

/-! ## Affixes -/

/-- How the nodes of a rule are printed: what stands before, between and after the children. -/
structure Affixes where
  opening : List Spot := []
  separator : List Spot := []
  closing : List Spot := []
deriving DecidableEq

/-- A place that a terminal takes. -/
def Terminal.spot (k : Terminal) : Spot := .symbol (.terminal k)

/-- The settings of the rules of elementary expressions. -/
def Rule.affixes? : Rule → Option Affixes
  | .stmt | .smallStmt | .exprStmt | .test | .factor | .atomExpr | .integerLiteral | .hexLiteral
  | .octLiteral | .binLiteral | .floatLiteral | .imagLiteral | .booleanLiteral | .noneLiteral => some {}
  | .simpleStmt =>
    some { separator := [semicolon.spot, .blank], closing := [newline.spot] }
  | .testListStar | .testListComp | .dictOrSet =>
    some { separator := [comma.spot, .blank] }
  | .keyValue => some { separator := [colon.spot, .blank] }
  | .orTest => some { separator := [.blank, orWord.spot, .blank] }
  | .andTest => some { separator := [.blank, andWord.spot, .blank] }
  | .notTest | .comparison | .compOp | .expr | .xorExpr | .andExpr | .shiftExpr | .arithExpr | .term
  | .power => some { separator := [.blank] }
  | .setLiteral =>
    some { opening := [leftParen.spot], closing := [rightParen.spot] }
  | .arrayLiteral =>
    some { opening := [leftBracket.spot], closing := [rightBracket.spot] }
  | .objectLiteral =>
    some { opening := [leftBrace.spot], closing := [rightBrace.spot] }
  | _ => none

/-- What separates the items of a run from each other and from what stands before them. -/
def Run.separator? : Run → Option (List Spot)
  | .semicolonSmalls => some [semicolon.spot, .blank]
  | .commaTestsOrStars | .commaKeyValues | .commaTests => some [comma.spot, .blank]
  | .orTests => some [.blank, orWord.spot, .blank]
  | .andTests => some [.blank, andWord.spot, .blank]
  | .comparisons | .barExprs | .caretExprs | .ampersandExprs | .shifts | .sums | .products =>
    some [.blank]
  | _ => none

/-- The token of a terminal with one spelling, and that of the end of a line. -/
def Terminal.token (k : Terminal) : Token :=
  ⟨k, if k = .newline then "\n" else ((spelled.find? (·.1 == k)).map (·.2)).getD "", ⟨0, 0⟩⟩

/-- What is printed for a place that holds no category. -/
def Spot.glyphs : Spot → List Glyph
  | .blank => [.blank]
  | .symbol (.terminal k) => [.token k.token]
  | .symbol (.category _) => []

/-- What is printed for places that hold no categories. -/
def glyphsOf (spots : List Spot) : List Glyph := spots.flatMap Spot.glyphs

namespace Tree

mutual

/-- A tree as it is printed. -/
def printed : Tree → List Glyph
  | leaf _ t => [.token t]
  | node _ r _ cs =>
    match r.affixes? with
    | none => []
    | some s => glyphsOf s.opening ++ printedIn (glyphsOf s.separator) cs ++ glyphsOf s.closing

/-- Trees as they are printed with something between them. -/
def printedIn (between : List Glyph) : List Tree → List Glyph
  | [] => []
  | t :: ts => printed t ++ printedAfter between ts

/-- Trees as they are printed with something before each of them. -/
def printedAfter (between : List Glyph) : List Tree → List Glyph
  | [] => []
  | t :: ts => between ++ printed t ++ printedAfter between ts

end

theorem printedAfter_append (between : List Glyph) (ts ts' : List Tree) :
    printedAfter between (ts ++ ts') = printedAfter between ts ++ printedAfter between ts' := by
  induction ts with
  | nil => rfl
  | cons t ts ih =>
    rw [cons_append, printedAfter, printedAfter, ih]
    simp only [append_assoc]

/-- All inner nodes of a tree have a setting. -/
def IsSet (t : Tree) : Prop := ∀ s ∈ t.nodes, ((s.rule?.bind Rule.affixes?).isSome) = true

/-! ## Trees apart from numbers and places -/

mutual

/-- A tree apart from the numbers of its nodes and from where they stand. -/
def bare : Tree → Tree
  | leaf _ token => leaf 0 token.unplaced
  | node _ rule _ children => node 0 rule ⟨0, 0⟩ (bareIn children)

/-- Trees apart from numbers and places. -/
def bareIn : List Tree → List Tree
  | [] => []
  | t :: ts => bare t :: bareIn ts

end

theorem bareIn_eq_map (ts : List Tree) : bareIn ts = ts.map bare := by
  induction ts with
  | nil => rfl
  | cons t ts ih => rw [bareIn, map_cons, ih]

mutual

theorem bare_bare : (t : Tree) → t.bare.bare = t.bare
  | leaf _ _ => rfl
  | node _ _ _ cs => by rw [bare, bare, bareIn_bareIn cs]

theorem bareIn_bareIn : (ts : List Tree) → bareIn (bareIn ts) = bareIn ts
  | [] => rfl
  | t :: ts => by rw [bareIn, bareIn, bare_bare t, bareIn_bareIn ts]

end

theorem bare_node (id : Nat) (rule : Rule) (span : Span) (children : List Tree) :
    (node id rule span children).bare = node 0 rule ⟨0, 0⟩ (children.map bare) := by
  rw [bare, bareIn_eq_map]

end Tree

/-! ## Tokens -/

/-- What a text starts with can be seen. -/
instance : (l : Lead) → (d : Char) → Decidable (l.Holds d)
  | .separator, d => inferInstanceAs (Decidable (d ∈ Lexer.separators))
  | .operand, d => inferInstanceAs (Decidable (Lexer.isGap d = false ∧ d ≠ '=' ∧ d ≠ '>'))
  | .operator, d => inferInstanceAs (Decidable (Lexer.isGap d = false))

variable {t : Token} {p : Production}

/-- The text of a token starts as its terminal says. -/
theorem Token.Lexed.lead (ht : t.Lexed) (hk : t.kind ∈ Terminal.elementary) :
    ∃ d ds, t.text.toList = d :: ds ∧ t.kind.lead.Holds d := by
  rcases number_or_spelled hk with hnumber | ⟨text, hmem⟩
  · have hlead : ∀ k ∈ Lexer.numberKinds, k.lead = .operand := by decide
    rw [hlead _ hnumber]
    obtain ⟨length?, back, hclasses⟩ := Lexer.exists_classes_eq hnumber
    have hmem : (t.kind, length?) ∈ Lexer.classes :=
      hclasses ▸ mem_append_right _ (.head _)
    obtain ⟨cs, n, hn, htext⟩ := ht.scanned length? hmem
    obtain ⟨hpos, hle⟩ := Lexer.measures_of_mem_classes hmem cs n hn
    rw [htext, String.toList_ofList]
    match cs, n with
    | [], n => exact absurd hpos (Nat.not_lt.2 hle)
    | c :: cs, 0 => exact absurd hpos (Nat.lt_irrefl 0)
    | c :: cs, n + 1 =>
      refine ⟨c, cs.take n, rfl, ?_⟩
      -- What starts with a gap or one of the two signs is no number.
      have hstart : Lexer.startsNumber c := by
        by_contra hc
        rw [Bool.not_eq_true] at hc
        rcases Lexer.class_of_first hmem hc hn with ⟨hkind, -⟩ | ⟨hkind, -⟩ | ⟨hkind, -⟩
        all_goals exact absurd (hkind ▸ hnumber) (by decide)
      have hother : ∀ c ∈ [' ', '\t', '\x0c', '=', '>'], Lexer.startsNumber c = false :=
        all_iff_forall_prop.1 (by decide)
      have hne : c ∉ [' ', '\t', '\x0c', '=', '>'] := by
        intro hc
        rw [hother c hc] at hstart
        cases hstart
      simp only [mem_cons, not_mem_nil, or_false, not_or] at hne
      simp [Lead.Holds, Lexer.isGap, hne]
  · have hlead : ∀ e ∈ Terminal.spelled, e.1 ∈ Terminal.elementary →
        e.2.toList.head?.any (fun d => decide (e.1.lead.Holds d)) := by
      decide +kernel
    rw [ht.spelled text hmem]
    obtain ⟨d, hd, hholds⟩ := (Option.any_eq_true _ _).1 (hlead _ hmem hk)
    exact ⟨d, _, eq_cons_of_mem_head? hd, of_decide_eq_true hholds⟩

theorem Token.Lexed.written (ht : t.Lexed) (hk : t.kind ∈ Terminal.elementary) :
    Written (.terminal t.kind) [.token t] (Parser.Fragment.ofToken t).unplaced.trees where
  derives := by
    have h := Derives.terminal t .nil
    rwa [append_nil] at h
  spaced rest hrest := by
    have hline : (terminal t.kind).endsLine = false := by
      have hall : ∀ k ∈ Terminal.elementary, (terminal k).endsLine = false := by decide
      exact hall _ hk
    rw [Symbol.Precedes, hline] at hrest
    exact ⟨⟨ht, .inr ⟨hk, hrest⟩⟩, trivial⟩
  lead := by
    obtain ⟨d, ds, htext, hd⟩ := ht.lead hk
    exact ⟨d, ds, by simp [textOf, Glyph.text, htext], hd⟩
  brackets n := rfl

theorem Token.Lexed.written_leaf (ht : t.Lexed) (hdelimiter : t.kind.isDelimiter = false) (id : Nat)
    (hk : t.kind ∈ Terminal.elementary) :
    Written (.terminal t.kind) (leaf id t).printed [(leaf id t).bare] := by
  have htrees : (Parser.Fragment.ofToken t).unplaced.trees = [(leaf id t).bare] := by
    simp [Parser.Fragment.ofToken, Parser.Fragment.unplaced, hdelimiter, bare]
  exact htrees ▸ ht.written hk

theorem written_newline : Written (.terminal .newline) [.token newline.token] [] where
  derives := .terminal newline.token .nil
  spaced rest hrest := by
    have hlexed : newline.token.Lexed :=
      Lexer.lexed_of_scan (Lexer.scan_break (fun _ => true) []) ⟨0, 0⟩
    exact ⟨⟨hlexed, .inl ⟨rfl, rfl, hrest⟩⟩, trivial⟩
  lead := ⟨'\n', [], rfl, by decide⟩
  brackets n := rfl

/-! ## Places without categories -/

/-- The terminals that settings hold. -/
def Terminal.punctuation : List Terminal :=
  [.semicolon, .newline, .comma, .colon, .orWord, .andWord, .leftParen, .rightParen, .leftBracket,
   .rightBracket, .leftBrace, .rightBrace]

/-- Whether a place holds a blank or such a terminal. -/
def Spot.isPunctuation : Spot → Bool
  | .blank => true
  | .symbol (.terminal k) => k ∈ punctuation
  | .symbol (.category _) => false

theorem fills_glyphsOf {spots : List Spot} (h : spots.all Spot.isPunctuation) :
    Fills spots (glyphsOf spots) [] := by
  induction spots with
  | nil => exact .nil
  | cons s spots ih =>
    rw [all_cons, Bool.and_eq_true] at h
    have hrest := ih h.2
    match s with
    | .blank => exact .blank hrest
    | .symbol (.terminal k) =>
      have hk : k ∈ punctuation := of_decide_eq_true h.1
      have hwritten : Written (.terminal k) [.token k.token] [] := by
        by_cases hnewline : k = .newline
        · rw [hnewline]
          exact written_newline
        · have hspelled : ∀ k ∈ punctuation, k ≠ .newline →
              (k, k.token.text) ∈ Terminal.spelled ∧ k ∈ Terminal.elementary ∧
                k.isDelimiter := by decide +kernel
          obtain ⟨hmem, helementary, hdelimiter⟩ := hspelled k hk hnewline
          have htrees : (Parser.Fragment.ofToken k.token).unplaced.trees = [] := by
            simp [Parser.Fragment.ofToken, Parser.Fragment.unplaced, token, hdelimiter]
          have hwritten := (Lexer.lexed_of_mem_spelled hmem ⟨0, 0⟩).written helementary
          exact htrees ▸ hwritten
      exact .symbol hwritten hrest

/-! ## Productions -/

/-- Whether a symbol is a run. -/
def Symbol.isRun : Symbol → Bool
  | .category (.run _) => true
  | _ => false

/-- Symbols with places before each of them. A run brings its own. -/
def spotsAfter (between : List Spot) (xs : List Symbol) : List Spot :=
  xs.flatMap fun x => if x.isRun then [.symbol x] else between ++ [.symbol x]

/-- Symbols with places between them. -/
def spotsIn (between : List Spot) : List Symbol → List Spot
  | [] => []
  | x :: xs => .symbol x :: spotsAfter between xs

/-- Whether a symbol leaves something. -/
def Symbol.isPiece (x : Symbol) : Bool := x.piece?.isSome

/-- The symbols of a production that leave something. -/
def Production.pieces (p : Production) : List Symbol := p.rhs.filter isPiece

/-- Whether some nodes that are read for a rule have a setting. -/
def Rule.isSet (r : Rule) : Bool := r.names.any (·.affixes?.isSome)

/-- Whether a symbol is printed where what separates is this. -/
def Symbol.isSet (between : List Spot) : Symbol → Bool
  | .terminal k => k.isDelimiter || k ∈ Terminal.elementary
  | .category (.rule r) => r.isSet
  | .category (.run r) => r.separator? == some between
  | .category .source => false

namespace Production

/-- Whether all rules in a production have settings. -/
def isSet (p : Production) : Bool :=
  p.rhs.all fun
    | .category (.rule r) => r.isSet
    | _ => true

/-- Whether a production is printed with these places, which make it one with the same node. -/
def isPrinted (p : Production) (between spots : List Spot) : Bool :=
  fits p.lhs spots && p.rhs.all (·.isSet between) &&
    ((⟨p.lhs, spots.filterMap Spot.symbol?, p.node⟩ : Production) ∈ p.lhs.productions)

theorem isPrinted_of_setting : ∀ p ∈ productions, ∀ s ∈ p.node.bind Rule.affixes?, p.isSet →
    p.isPrinted s.separator (s.opening ++ spotsIn s.separator p.pieces ++ s.closing) ∧
      p.pieces.head?.any isRun = false := by
  decide +kernel

end Production

theorem Run.isPrinted_of_separator (r : Run) : ∀ between ∈ r.separator?, ∀ p ∈ r.productions,
    p.isSet → p.isPrinted between (spotsAfter between p.pieces) := by
  cases r <;> decide +kernel

theorem Rule.isPunctuation_of_setting (r : Rule) : ∀ s ∈ r.affixes?,
    (s.opening ++ s.separator ++ s.closing).all Spot.isPunctuation := by
  cases r <;> decide

theorem Run.isPunctuation_of_separator (r : Run) : ∀ between ∈ r.separator?,
    between.all Spot.isPunctuation := by
  cases r <;> decide

/-! ## What symbols leave -/

/-- Trees that a symbol leaves are printed for it: nothing for a delimiter, a token or a node as it is,
the items of a run with something before each of them. -/
inductive Symbol.Prints : Symbol → List Tree → Prop
  | delimiter {k : Terminal} : k.isDelimiter = true → Prints (.terminal k) []
  | token {k : Terminal} {t : Tree} : k.isDelimiter = false →
    (k ∈ Terminal.elementary → Written (.terminal k) t.printed [t.bare]) → Prints (.terminal k) [t]
  | node {r : Rule} {t : Tree} : r.isSet = true → Written (.category (.rule r)) t.printed [t.bare] →
    Prints (.category (.rule r)) [t]
  | run {r : Run} {trees : List Tree} : (∀ between ∈ r.separator?,
      Written (.category (.run r)) (printedAfter (glyphsOf between) trees) (trees.map bare)) →
    Prints (.category (.run r)) trees

namespace Symbol.Prints

variable {x : Symbol} {trees : List Tree} {between : List Spot} (h : x.Prints trees)

include h

theorem eq_nil (hpiece : x.isPiece = false) : trees = [] := by
  cases h with
  | delimiter => rfl
  | token hk => simp [isPiece, piece?, hk] at hpiece
  | node | run => cases hpiece

theorem exists_single (hx : x.isSet between) (hpiece : x.isPiece)
    (hrun : x.isRun = false) : ∃ t, trees = [t] ∧ Written x t.printed [t.bare] := by
  cases h with
  | delimiter hk => simp [isPiece, piece?, hk] at hpiece
  | token hk hwritten =>
    rw [Symbol.isSet, hk, Bool.false_or, decide_eq_true_eq] at hx
    exact ⟨_, rfl, hwritten hx⟩
  | node _ hwritten => exact ⟨_, rfl, hwritten⟩
  | run => cases hrun

end Symbol.Prints

section Parts

variable {rhs : List Symbol} {parts : List (List Tree)} {between : List Spot}
  (h : Forall₂ Symbol.Prints rhs parts) (hbetween : between.all Spot.isPunctuation)
  (hrhs : ∀ x ∈ rhs, x.isSet between)

include h hbetween hrhs

/-- The parts of a production are printed with something before each of them. -/
theorem fills_spotsAfter :
    Fills (spotsAfter between (rhs.filter isPiece))
      (printedAfter (glyphsOf between) parts.flatten) (parts.flatten.map bare) := by
  induction h with
  | nil => exact .nil
  | @cons x part rhs parts hx hparts ih =>
    obtain ⟨hset, hrest⟩ := forall_mem_cons.1 hrhs
    have hfills := ih hrest
    rw [flatten_cons]
    cases hpiece : x.isPiece with
    | false =>
      rw [filter_cons_of_neg (by simp [hpiece]), hx.eq_nil hpiece]
      exact hfills
    | true =>
      rw [printedAfter_append, map_append, filter_cons_of_pos hpiece, spotsAfter,
        flatMap_cons]
      refine Fills.append ?_ hfills
      cases hrun : x.isRun with
      | false =>
        obtain ⟨t, rfl, hwritten⟩ := hx.exists_single hset hpiece hrun
        have hall := (fills_glyphsOf hbetween).append (.symbol hwritten .nil)
        simpa [printedAfter] using hall
      | true =>
        cases hx with
        | run hwritten => simpa using Fills.symbol (hwritten between (beq_iff_eq.1 hset)) .nil
        | delimiter | token | node => cases hrun

theorem fills_spotsIn (hhead : (rhs.filter isPiece).head?.any isRun = false) :
    Fills (spotsIn between (rhs.filter isPiece))
      (printedIn (glyphsOf between) parts.flatten) (parts.flatten.map bare) := by
  induction h with
  | nil => exact .nil
  | @cons x part rhs parts hx hparts ih =>
    obtain ⟨hset, hrest⟩ := forall_mem_cons.1 hrhs
    rw [flatten_cons]
    cases hpiece : x.isPiece with
    | false =>
      rw [filter_cons_of_neg (by simp [hpiece])] at hhead ⊢
      rw [hx.eq_nil hpiece]
      exact ih hrest hhead
    | true =>
      rw [filter_cons_of_pos hpiece] at hhead ⊢
      obtain ⟨t, rfl, hwritten⟩ := hx.exists_single hset hpiece (by simpa using hhead)
      exact .symbol hwritten (fills_spotsAfter hparts hbetween hrest)

end Parts

/-- What a production whose parts have settings is printed as is written for its category. -/
theorem Production.isPrinted.written {between spots : List Spot} {gs : List Glyph} {trees : List Tree}
    (h : p.isPrinted between spots) (hlhs : p.lhs ≠ .source) (hfills : Fills spots gs trees) :
    Written (.category p.lhs) gs (p.enclose trees) := by
  simp only [isPrinted, Bool.and_eq_true, decide_eq_true_eq] at h
  have hwritten := hfills.written (mem_productions h.2) hlhs rfl h.1.1
  exact hwritten

theorem Run.node_of_mem_productions {r : Run} (hp : p ∈ r.productions) :
    p.node = none := by
  rcases mem_append.1 hp with hp | hp
  all_goals
    obtain ⟨rhs, -, rfl⟩ := mem_map.1 hp
    rfl

theorem isSet_of_prints {parts : List (List Tree)} (h : Forall₂ Symbol.Prints p.rhs parts) : p.isSet := by
  rw [Production.isSet]
  generalize p.rhs = rhs at h ⊢
  induction h with
  | nil => rfl
  | cons hx _ ih =>
    rw [all_cons, ih, Bool.and_true]
    cases hx with
    | node hset => exact hset
    | delimiter | token | run => rfl

section Join

variable {p : Production} {parts : List (List Tree)} (hparts : Forall₂ Symbol.Prints p.rhs parts)

include hparts

theorem written_node (hp : p ∈ productions) {name : Rule} (hnode : p.node = some name) {s : Affixes}
    (hs : name.affixes? = some s) (id : Nat) (span : Span) :
    Written (.category p.lhs) (node id name span parts.flatten).printed
      [(node id name span parts.flatten).bare] := by
  have hlhs : p.lhs ≠ .source := by
    intro hsource
    rw [eq_start hp hsource] at hnode
    cases hnode
  have hsetting : s ∈ p.node.bind Rule.affixes? := by
    rw [hnode]
    exact hs
  obtain ⟨hprinted, hhead⟩ := p.isPrinted_of_setting hp s hsetting (isSet_of_prints hparts)
  have hpunctuation := name.isPunctuation_of_setting s hs
  simp only [all_append, Bool.and_eq_true] at hpunctuation
  obtain ⟨⟨hopening, hseparator⟩, hclosing⟩ := hpunctuation
  have hrhs : ∀ x ∈ p.rhs, x.isSet s.separator := by
    simp only [isPrinted, Bool.and_eq_true] at hprinted
    exact all_eq_true.1 hprinted.1.2
  have hfills := ((fills_glyphsOf hopening).append
    (fills_spotsIn hparts hseparator hrhs hhead)).append (fills_glyphsOf hclosing)
  have hwritten := isPrinted.written hprinted hlhs hfills
  rw [printed, hs, bare_node]
  simpa [enclose, hnode] using hwritten

theorem written_run {r : Run} (hp : p ∈ r.productions) (hlhs : p.lhs = .run r) {between : List Spot}
    (hbetween : r.separator? = some between) :
    Written (.category (.run r)) (printedAfter (glyphsOf between) parts.flatten)
      (parts.flatten.map bare) := by
  have hprinted := r.isPrinted_of_separator between hbetween p hp (isSet_of_prints hparts)
  have hrhs : ∀ x ∈ p.rhs, x.isSet between := by
    simp only [isPrinted, Bool.and_eq_true] at hprinted
    exact all_eq_true.1 hprinted.1.2
  have hfills := fills_spotsAfter hparts (r.isPunctuation_of_separator between hbetween) hrhs
  have hwritten := isPrinted.written hprinted (by simp [hlhs]) hfills
  rwa [enclose, Run.node_of_mem_productions hp, hlhs] at hwritten

end Join

end QueryScribe
