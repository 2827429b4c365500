import QueryScribe.Proofs.Bracketing
import QueryScribe.Proofs.Reader.Written

/-!
# Expressions inside other texts

A text that is read to one expression is read in the same way as a part of another text. Its lexemes
are found there if a separator comes after it, and its tokens are taken alike if the stack there goes
on alike with whatever can come first in an expression (`Derives.eatsBoth`). So the reader goes through
the text of the expression (`Walks.embed`), whatever comes then.
-/

namespace QueryScribe

open List

open Lexer

/-- The tokens that are put on the stack, where `n` brackets are open: all but the line breaks inside
brackets. -/
def significant : Nat → List Token → List Token
  | _, [] => []
  | n, t :: ts =>
    if t.kind = .newline ∧ 0 < n then significant n ts else t :: significant (t.openAfter n) ts

theorem mem_of_mem_significant {n : Nat} {ts : List Token} {t : Token} (h : t ∈ significant n ts) :
    t ∈ ts := by
  fun_induction significant n ts with
  | case1 => exact h
  | case2 n s ts _ ih => exact mem_cons_of_mem s (ih h)
  | case3 n s ts _ ih =>
    rcases mem_cons.1 h with rfl | h
    · exact .head _
    · exact mem_cons_of_mem s (ih h)

/-- Where some more brackets are open before a token, no fewer and at most so many more are open after
it. -/
theorem Token.openAfter_le (t : Token) {n n' m : Nat} (h : n ≤ n' ∧ n' ≤ n + m) :
    t.openAfter n ≤ t.openAfter n' ∧ t.openAfter n' ≤ t.openAfter n + m := by
  unfold openAfter
  split <;> omega

namespace Parser

variable {p : Progress}

theorem Takes.of_feeds {t : Token} {stack : List Frame} (ht : t.kind ≠ .newline)
    (h : Feeds t p.stack (some stack)) :
    Takes p t (.ok ⟨stack, { p.layout with brackets := t.openAfter p.layout.brackets }, some t,
      t.span⟩) := by
  have hstep := p.layout.step_of_ne ht
  refine .take (q := { p with stack := stack, fed := some t }) ?_ (by rw [hstep])
  rw [hstep]
  exact .cons h .nil

/-- The reader comes by a text from one state to another, before whatever else is gone through from
there. -/
def Crosses (offset : Nat) (u rest : List Char) (s q : Progress) : Prop :=
  ∀ {ts : List Token} {r : Progress}, Walks (offset + u.length) rest q ts r →
    ∃ ts', Walks offset (u ++ rest) s ts' r

theorem Crosses.of_drop {offset m : Nat} {u rest : List Char} {s q r : Progress} {ts : List Token}
    (h : Crosses (offset + m) (u.drop m) rest s q) (hm : m ≤ u.length)
    (hwalks : Walks (offset + u.length) rest q ts r) :
    ∃ ts', Walks (offset + m) ((u ++ rest).drop m) s ts' r := by
  have hplace : offset + u.length = offset + m + (u.drop m).length := by
    rw [length_drop]
    omega
  rw [drop_append_of_le_length hm]
  rw [hplace] at hwalks
  exact h hwalks

/-- A text before a line break, all of whose tokens but that line break are put on a stack, is gone
through before any separator on a stack that takes these tokens alike. -/
theorem Walks.embed {offset : Nat} {text : List Char} {q : Progress} {ts : List Token}
    (h : Walks offset text p ts q) {u : List Char} (htext : text = u ++ ['\n']) {us : List Token}
    {newline : Token} (hts : significant p.layout.brackets ts = us ++ [newline])
    (hplace : newline.span.start = offset + u.length) (hus : ∀ t ∈ us, t.kind ≠ .newline) {s : Progress}
    {last last' : List Frame} (heats : EatsBoth p.stack s.stack us last last')
    (hle : ∀ t, (top s.stack).accepts .source t → (top p.stack).accepts .source t ∨ t = .rightParen ∨ t = .rightBracket)
    (hname : (top p.stack).accepts .source .name → (top s.stack).accepts .source .name) {n : Nat}
    (hopen : p.layout.brackets ≤ s.layout.brackets ∧ s.layout.brackets ≤ p.layout.brackets + n)
    {d : Char} (hd : d ∈ separators) (hgap : isGap d = false) (w : List Char) :
    ∃ q', q'.stack = last' ∧ q'.layout.levels = s.layout.levels ∧ q'.layout.brackets ≤ n ∧
      Crosses offset u (d :: w) s q' := by
  have hmem : newline ∈ ts := mem_of_mem_significant (by rw [hts]; simp)
  -- The two stacks are kept side by side along the way; the way ends with the line break of the text.
  induction h generalizing u us s with
  | nil => simp at htext
  | @skip offset m c cs p q ts hscan hm hrest ih =>
    rw [htext] at hscan hrest ih
    obtain ⟨hlength, hinside⟩ := hrest.inside (l := ⟨none, m⟩) hmem hplace
    have hscan' := scan_before (w := w) hscan hlength hd hgap ⟨hle, nofun, hname⟩ hinside nofun
    dsimp only at hlength
    obtain ⟨q', hstack, hlevels, hbrackets, hcrosses⟩ := ih (drop_append_of_le_length hlength) hts
      (by rw [length_drop]; omega) hus heats hle hname hopen hmem
    refine ⟨q', hstack, hlevels, hbrackets, fun hwalks => ?_⟩
    obtain ⟨ts', hwalks⟩ := hcrosses.of_drop hlength hwalks
    exact ⟨ts', .skip_of hscan' hwalks⟩
  | @take offset m c cs p q r kind ts hscan hm htakes hrest ih =>
    rw [htext] at hscan hrest ih htakes hts
    rw [significant] at hts
    by_cases hdropped : kind = .newline ∧ 0 < p.layout.brackets
    · -- A line break inside brackets, which cannot end where another one stands.
      obtain ⟨rfl, hpos⟩ := hdropped
      rw [if_pos ⟨rfl, hpos⟩] at hts
      have hmem : newline ∈ ts := mem_of_mem_significant (by rw [hts]; simp)
      obtain ⟨hlength, hinside⟩ := hrest.inside (l := ⟨some .newline, m⟩) hmem hplace
      have hend : m < u.length := by
        refine Nat.lt_of_le_of_ne hlength fun heq => ?_
        have hline := (newline?_eq_some.1 (newline?_of_scan hscan)).1
        have hhead := head?_drop_lineEnd .nothing (u ++ ['\n'])
        rw [hline, heq, drop_left] at hhead
        exact hhead rfl
      have hscan' := scan_before (w := w) hscan hlength hd hgap
        ⟨hle, fun t ht hne => absurd (Option.some.inj ht).symm hne, hname⟩ hinside fun _ => hend
      dsimp only at hlength
      obtain rfl := Except.ok.inj (htakes.unique (takes_of_newline hpos rfl))
      obtain ⟨q', hstack, hlevels, hbrackets, hcrosses⟩ := ih
        (s := { s with seen := ⟨offset, offset + m⟩ }) (drop_append_of_le_length hlength) hts
        (by rw [length_drop]; omega) hus heats hle hname hopen hmem
      refine ⟨q', hstack, hlevels, hbrackets, fun hwalks => ?_⟩
      obtain ⟨ts', hwalks⟩ := hcrosses.of_drop hlength hwalks
      exact ⟨_, .take_of hscan' (takes_of_newline (Nat.lt_of_lt_of_le hpos hopen.1) rfl) hwalks⟩
    · rw [if_neg hdropped] at hts
      cases us with
      | nil =>
        -- The line break at the end: nothing is left of the text, and no bracket is open.
        obtain ⟨rfl, -⟩ := List.cons.inj hts
        obtain rfl : u = [] := by
          rw [← length_eq_zero_iff]
          dsimp only at hplace
          omega
        have hkind : kind = .newline := by
          have hbreak := hscan.symm.trans (scan_break _ [])
          cases hbreak
          rfl
        cases heats
        refine ⟨s, rfl, rfl, ?_, fun hwalks => ⟨_, hwalks⟩⟩
        have hclosed : ¬ 0 < p.layout.brackets := fun hpos => hdropped ⟨hkind, hpos⟩
        omega
      | cons t us =>
        obtain ⟨rfl, hrest'⟩ := List.cons.inj hts
        have hne : kind ≠ .newline := hus _ (.head _)
        cases heats with
        | @cons _ _ mid mid' _ _ _ _ hfeeds hfeeds' htop heats =>
          -- After the first token the states on top are the same, so both accept the same.
          obtain rfl := Except.ok.inj (htakes.unique (.of_feeds hne hfeeds))
          have hmem : newline ∈ ts := mem_of_mem_significant (by rw [hrest']; simp)
          obtain ⟨hlength, hinside⟩ := hrest.inside (l := ⟨some kind, m⟩) hmem hplace
          have hnarrows : Lexer.Narrows ((top p.stack).accepts .source)
              ((top s.stack).accepts .source) ⟨some kind, m⟩ :=
            ⟨hle, fun t ht _ _ => Option.some.inj ht ▸ hfeeds'.accepts, hname⟩
          have hscan' := scan_before (w := w) hscan hlength hd hgap hnarrows hinside
            fun h => absurd (Option.some.inj h) hne
          dsimp only at hlength
          have htakes' := Takes.of_feeds (p := s) hne hfeeds'
          obtain ⟨q', hstack, hlevels, hbrackets, hcrosses⟩ := ih
            (s := ⟨mid', { s.layout with brackets := Token.openAfter s.layout.brackets _ }, _, _⟩)
            (drop_append_of_le_length hlength) hrest' (by rw [length_drop]; omega)
            (fun t ht => hus t (.tail _ ht)) heats
            (fun t ht => .inl (htop ▸ ht)) (fun ht => htop ▸ ht) (Token.openAfter_le _ hopen) hmem
          refine ⟨q', hstack, hlevels, hbrackets, fun hwalks => ?_⟩
          obtain ⟨ts', hwalks⟩ := hcrosses.of_drop hlength hwalks
          rw [take_append_of_le_length hlength, ← take_append_of_le_length hlength] at htakes'
          exact ⟨_, .take_of hscan' htakes' hwalks⟩

/-! ## Reading the rest of a text -/

/-- A reader reads the rest of a text to a tree, apart from places. -/
def ReadsTo (text : List Char) (p : Progress) (root : Tree) : Prop :=
  ∃ offset ts q tree, Walks offset text p ts q ∧ Closes q tree ∧ tree.unplaced = root

namespace ReadsTo

variable {text rest : List Char} {p q : Progress} {stack : List Frame} {root : Tree} {d : Char}

theorem walks (h : ReadsTo text p root) (offset : Nat) :
    ∃ ts q tree, Walks offset text p ts q ∧ Closes q tree ∧ tree.unplaced = root := by
  obtain ⟨_, ts, q, tree, hwalks, hcloses, htree⟩ := h
  obtain ⟨ts', q', hwalks', hq⟩ := hwalks.alike ⟨rfl, rfl⟩ offset
  obtain ⟨tree', hcloses', htree'⟩ := hcloses.alike hq
  exact ⟨ts', q', tree', hwalks', hcloses', htree'.trans htree⟩

theorem parse {source : String} (h : ReadsTo (normalize source) {} root) :
    ∃ tree : Tree, QueryScribe.parse source = .ok (tree.numberFrom 0).1 ∧ tree.unplaced = root := by
  obtain ⟨ts, q, tree, hwalks, hcloses, htree⟩ := h.walks 0
  exact ⟨tree, parse_of_reads (reads_iff.2 ⟨ts, q, hwalks, hcloses⟩), htree⟩

theorem blank (hd : isGap d = false) (h : ReadsTo (d :: rest) p root) :
    ReadsTo (' ' :: d :: rest) p root := by
  obtain ⟨ts, q, tree, hwalks, hcloses⟩ := h.walks (0 + 1)
  exact ⟨0, ts, q, tree, .skip_of (scan_blank hd) hwalks, hcloses⟩

theorem newline (hlevels : p.layout.levels = []) (hclosed : p.layout.brackets = 0) {tree : Tree}
    (hfeeds : Feeds ⟨.newline, "\n", ⟨0, 1⟩⟩ p.stack (some stack))
    (hfinishes : Finishes stack (some tree)) : ReadsTo ['\n'] p tree.unplaced := by
  let t : Token := ⟨.newline, "\n", ⟨0, 1⟩⟩
  have hstep := p.layout.step_of_newline (t := t) rfl rfl hclosed hlevels
  let q : Progress := ⟨stack, p.layout, some t, t.span⟩
  have htakes : Takes p t (.ok q) := by
    refine .take (q := { p with stack := stack, fed := some t }) ?_ (by rw [hstep])
    rw [hstep]
    exact .cons hfeeds .nil
  refine ⟨0, _, q, tree, .take_of (scan_break _ []) htakes .nil, ⟨q, ?_, hfinishes⟩, rfl⟩
  rw [Layout.finish, hlevels]
  exact .nil

end ReadsTo

/-! ## Signs of a group -/

/-- The token of a sign at the start of a text. -/
def sign (k : Terminal) (text : String) : Token := ⟨k, text, ⟨0, text.length⟩⟩

/-- The signs with which groups are written. -/
def groupSigns : List (Terminal × String) := [(.leftParen, "("), (.comma, ","), (.rightParen, ")")]

theorem scan_groupSign {k : Terminal} {text : String} (h : (k, text) ∈ groupSigns)
    {accepts : Terminal → Bool} (haccepts : accepts k) (d : Char) (rest : List Char) :
    scan accepts (text.toList ++ d :: rest) = some ⟨some k, text.length⟩ := by
  have hall : ∀ e ∈ groupSigns, e ∈ Terminal.spelled ∧
      e.2.toList.head?.any startsSign ∧
      ∀ sign ∈ signs, e.2.toList.isPrefixOf sign.toList → sign.length ≤ e.2.length := by
    decide +kernel
  obtain ⟨hmem, hfirst, hshort⟩ := hall _ h
  refine scan_sign hmem haccepts (any_eq_false.2 fun sign hsign hfront => ?_) hfirst
  have hfront := isPrefixOf_iff_prefix.1 hfront
  have hle := hshort sign hsign
    ( isPrefixOf_iff_prefix.2 ((prefix_append _ [d]).trans hfront))
  have hlength := hfront.length_le
  rw [length_append, String.length_toList, String.length_toList, length_singleton] at hlength
  dsimp only at hle
  omega

theorem ReadsTo.groupSign {k : Terminal} {text : String} (h : (k, text) ∈ groupSigns)
    {stack : List Frame} (hfeeds : Feeds (sign k text) p.stack (some stack)) {d : Char}
    {rest : List Char} {root : Tree}
    (hrest : ∀ q : Progress, q.stack = stack → q.layout.levels = p.layout.levels → q.layout.brackets = (sign k text).openAfter p.layout.brackets → ReadsTo (d :: rest) q root) :
    ReadsTo (text.toList ++ d :: rest) p root := by
  have hne : ∀ e ∈ groupSigns, e.1 ≠ .newline := by decide
  have hscan := scan_groupSign h hfeeds.accepts d rest
  have htake : (text.toList ++ d :: rest).take text.length = text.toList := by
    rw [← String.length_toList, take_left]
  have hdrop : (text.toList ++ d :: rest).drop text.length = d :: rest := by
    rw [← String.length_toList, drop_left]
  obtain ⟨ts, q, tree, hwalks, hcloses⟩ := (hrest ⟨stack, { p.layout with
    brackets := (sign k text).openAfter p.layout.brackets }, _, _⟩ rfl rfl rfl).walks (0 + text.length)
  have htakes := Takes.of_feeds (hne _ h) hfeeds
  refine ⟨0, _, q, tree, .take_of hscan ?_ (hdrop ▸ hwalks), hcloses⟩
  rw [htake, String.ofList_toList, Nat.zero_add]
  exact htakes

end Parser

end QueryScribe
