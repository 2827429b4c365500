import QueryScribe.Proofs.Bracketing
import QueryScribe.Proofs.Printing.Trees

/-!
# Texts of printed trees

The text that a tree is printed as (`Tree.code`), from the texts of its children, and the spellings of
the tokens that the grammar fixes. Tokens neither start nor end with a blank (`Token.Lexed.isSharp`), so
nothing is trimmed from what starts and ends with them.
-/

namespace QueryScribe

open List

open Lexer Text

/-! ## Texts without blanks at their ends -/

namespace Text

/-- Whether a text starts and ends with characters that are not blank. -/
def isSharp (cs : List Char) : Bool := cs.head?.any (!isBlank ·) && cs.getLast?.any (!isBlank ·)

variable {a b cs : List Char}

theorem isSharp_of_forall (hne : cs ≠ []) (h : ∀ c ∈ cs, isBlank c = false) : isSharp cs := by
  have hfirst := h _ (head_mem hne)
  have hlast := h _ (getLast_mem hne)
  simp [isSharp, head?_eq_some_head hne, getLast?_eq_some_getLast hne, hfirst, hlast]

theorem isSharp_append (ha : isSharp a) (hb : isSharp b) (between : List Char) :
    isSharp (a ++ (between ++ b)) := by
  rw [isSharp, Bool.and_eq_true] at ha hb ⊢
  obtain ⟨c, hc, hfirst⟩ := (Option.any_eq_true _ _).1 ha.1
  obtain ⟨d, hd, hlast⟩ := (Option.any_eq_true _ _).1 hb.2
  rw [head?_append, hc, getLast?_append, getLast?_append, hd]
  exact ⟨hfirst, hlast⟩

theorem isSharp_intercalate {texts : List (List Char)} (hne : texts ≠ [])
    (h : ∀ cs ∈ texts, isSharp cs) (between : List Char) :
    isSharp (between.intercalate texts) := by
  induction texts with
  | nil => exact absurd rfl hne
  | cons a texts ih =>
    obtain ⟨ha, hrest⟩ := forall_mem_cons.1 h
    cases texts with
    | nil => rwa [intercalate_singleton]
    | cons b texts =>
      rw [intercalate_cons_cons, append_assoc]
      exact isSharp_append ha (ih nofun hrest) between

theorem trim_of_isSharp (h : isSharp cs) : trim cs = cs := by
  rw [isSharp, Bool.and_eq_true] at h
  have hends : ∀ o : Option Char, o.any (!isBlank ·) → ∀ c ∈ o, isBlank c = false := by
    rintro _ ho c rfl
    simpa using ho
  exact trimBy_of_ends (hends _ h.1) (hends _ h.2)

end Text

/-! ## Characters of numbers -/

namespace Lexer

variable {cs : List Char} {n : Nat} {c : Char}

theorem isFloatChar_of_imag? (h : imag? cs = some n) (hc : c ∈ cs.take n) :
    isFloatChar c ∨ c = 'j' ∨ c = 'J' := by
  obtain ⟨front, d, htake, hd, hfront⟩ := exists_of_imag? h
  rw [htake] at hc
  rcases mem_append.1 hc with hc | hc
  · exact .inl (hfront c hc)
  · exact .inr (mem_singleton.1 hc ▸ hd)

theorem isBlank_of_le (hlow : '0' ≤ c) (hhigh : c ≤ 'z') : isBlank c = false := by
  have hlow : 48 ≤ c.toNat := hlow
  have hhigh : c.toNat ≤ 122 := hhigh
  have hapart : ∀ range ∈ blankRanges, range.2 < 48 ∨ 122 < range.1 := by decide
  rw [isBlank, within, any_eq_false]
  intro range hrange
  have := hapart range hrange
  simp only [Bool.and_eq_true, decide_eq_true_eq]
  omega

theorem isBlank_of_isFloatChar (h : isFloatChar c) : isBlank c = false := by
  simp only [isFloatChar, isDigitOrUnderscore, Bool.or_eq_true, beq_iff_eq, contains_eq_mem,
    decide_eq_true_eq] at h
  rcases h with (hdigit | rfl) | hother
  · exact Numeral.isBlank_of_isDigit hdigit
  · decide
  · have hall : ∀ c ∈ ['.', 'e', 'E', '+', '-'], isBlank c = false :=
      all_iff_forall_prop.1 (by decide)
    exact hall c hother

theorem isBlank_of_based? {lower upper : Char} {digit : Char → Bool}
    (h : based? lower upper digit cs = some n) (hlower : isBlank lower = false)
    (hupper : isBlank upper = false) (hdigit : ∀ d, digit d → isBlank d = false) :
    ∀ c ∈ cs.take n, isBlank c = false := by
  obtain ⟨c, ds, hc, hds, htake⟩ := exists_of_based? h
  rw [htake]
  refine forall_mem_cons.2 ⟨by decide, forall_mem_cons.2 ⟨?_, fun d hd => hdigit d (hds d hd)⟩⟩
  rcases hc with rfl | rfl
  · exact hlower
  · exact hupper

end Lexer

namespace Token.Lexed

variable {token : Token} (h : token.Lexed)

include h

theorem isBlank_of_number (hkind : token.kind ∈ numberKinds) :
    ∀ c ∈ token.text.toList, isBlank c = false := by
  have hclass : ∀ {kind : Terminal} {length? : List Char → Option Nat}, token.kind = kind →
      (kind, length?) ∈ classes →
      (∀ cs n, length? cs = some n → ∀ c ∈ cs.take n, isBlank c = false) →
      ∀ c ∈ token.text.toList, isBlank c = false := by
    intro kind length? hkind hmem hall
    obtain ⟨cs, n, hn, htext⟩ := h.exists_of_mem hkind hmem
    rw [htext]
    exact hall cs n hn
  have hdigit : ∀ d, isDigitOrUnderscore d → isBlank d = false := fun d hd =>
    isBlank_of_isFloatChar (by simp [isFloatChar, hd])
  simp only [numberKinds, mem_cons, not_mem_nil, or_false] at hkind
  rcases hkind with hkind | hkind | hkind | hkind | hkind | hkind
  · refine hclass hkind (by simp [classes] : (_, imag?) ∈ _) fun cs n hn c hc => ?_
    rcases isFloatChar_of_imag? hn hc with hfloat | rfl | rfl
    · exact isBlank_of_isFloatChar hfloat
    · decide
    · decide
  · exact hclass hkind (by simp [classes] : (_, float?) ∈ _) fun cs n hn c hc =>
      isBlank_of_isFloatChar (isFloatChar_of_float? hn hc)
  · refine hclass hkind (.tail _ (.tail _ (.head _))) fun cs n hn =>
      isBlank_of_based? hn (by decide) (by decide) fun d hd => ?_
    simp only [isHexDigit, Bool.or_eq_true, Bool.and_eq_true, decide_eq_true_eq, beq_iff_eq] at hd
    rcases hd with ((hd | hd) | hd) | rfl
    · exact Numeral.isBlank_of_isDigit hd
    · exact isBlank_of_le (Char.le_trans (by decide) hd.1) (Char.le_trans hd.2 (by decide))
    · exact isBlank_of_le (Char.le_trans (by decide) hd.1) (Char.le_trans hd.2 (by decide))
    · decide
  · refine hclass hkind (.tail _ (.tail _ (.tail _ (.head _)))) fun cs n hn =>
      isBlank_of_based? hn (by decide) (by decide) fun d hd => ?_
    simp only [Bool.or_eq_true, Bool.and_eq_true, decide_eq_true_eq, beq_iff_eq] at hd
    rcases hd with hd | rfl
    · exact isBlank_of_le hd.1 (Char.le_trans hd.2 (by decide))
    · decide
  · refine hclass hkind (.tail _ (.tail _ (.tail _ (.tail _ (.head _))))) fun cs n hn =>
      isBlank_of_based? hn (by decide) (by decide) fun d hd => ?_
    simp only [Bool.or_eq_true, beq_iff_eq] at hd
    rcases hd with (rfl | rfl) | rfl <;> decide
  · refine hclass hkind (by simp [classes] : (_, decimal?) ∈ _) fun cs n hn => ?_
    obtain ⟨c, ds, hlow, hhigh, -, hds, htake⟩ := exists_of_decimal? hn
    rw [htake]
    exact forall_mem_cons.2 ⟨isBlank_of_le hlow (Char.le_trans hhigh (by decide)),
      fun d hd => hdigit d (hds d hd)⟩

theorem isSharp (hkind : token.kind ∈ Terminal.elementary) : Text.isSharp token.text.toList := by
  rcases Terminal.number_or_spelled hkind with hnumber | ⟨text, hmem⟩
  · obtain ⟨d, ds, htext, -⟩ := h.lead hkind
    exact isSharp_of_forall (by rw [htext]; nofun) (h.isBlank_of_number hnumber)
  · have hspelled : ∀ e ∈ Terminal.spelled, e.1 ∈ Terminal.elementary →
        Text.isSharp e.2.toList := by decide +kernel
    rw [h.spelled text hmem]
    exact hspelled _ hmem hkind

end Token.Lexed

/-! ## Texts of trees -/

theorem intercalate_cons_eq_append {α : Type} (between a : List α) (texts : List (List α)) :
    between.intercalate (a :: texts) = a ++ texts.flatMap (between ++ ·) := by
  induction texts generalizing a with
  | nil => simp
  | cons b texts ih =>
    rw [intercalate_cons_cons, ih, flatMap_cons]
    simp only [append_assoc]

/-- The texts before, between and after the children of a node. -/
def Affixes.texts (s : Affixes) : List Char × List Char × List Char :=
  (textOf (glyphsOf s.opening), textOf (glyphsOf s.separator), textOf (glyphsOf s.closing))

namespace Tree

/-- The text that a tree is printed as. -/
def code (t : Tree) : List Char := textOf t.printed

@[simp]
theorem code_leaf (id : Nat) (token : Token) : (leaf id token).code = token.text.toList :=
  append_nil _

theorem textOf_printedAfter (between : List Glyph) (ts : List Tree) :
    textOf (printedAfter between ts) = (ts.map code).flatMap (textOf between ++ ·) := by
  induction ts with
  | nil => rfl
  | cons t ts ih =>
    rw [printedAfter, textOf_append, textOf_append, ih]
    rfl

theorem textOf_printedIn (between : List Glyph) (ts : List Tree) :
    textOf (printedIn between ts) = (textOf between).intercalate (ts.map code) := by
  cases ts with
  | nil => rfl
  | cons t ts =>
    rw [printedIn, textOf_append, textOf_printedAfter, map_cons, intercalate_cons_eq_append]
    rfl

theorem code_eq {id : Nat} {rule : Rule} {span : Span} {cs : List Tree}
    (opening separator closing : String) (h : rule.affixes?.map Affixes.texts =
      some (opening.toList, separator.toList, closing.toList)) :
    (node id rule span cs).code =
      opening.toList ++ (separator.toList.intercalate (cs.map code) ++ closing.toList) := by
  obtain ⟨s, hs, htexts⟩ := Option.map_eq_some_iff.1 h
  obtain ⟨hopening, hrest⟩ := Prod.mk.inj htexts
  obtain ⟨hseparator, hclosing⟩ := Prod.mk.inj hrest
  rw [code, printed, hs]
  simp only [textOf_append, textOf_printedIn, hopening, hseparator, hclosing, append_assoc]

theorem map_code_of_tokens {cs : List Tree} (h : ∀ c ∈ cs, c.isNode = false) :
    cs.map code = (cs.filterMap token?).map (·.text.toList) := by
  induction cs with
  | nil => rfl
  | cons c cs ih =>
    obtain ⟨hc, hcs⟩ := forall_mem_cons.1 h
    cases c with
    | node => cases hc
    | leaf id token =>
      rw [map_cons, ih hcs, code_leaf]
      rfl

/-! ## What the grammar fixes -/

namespace FollowsProduction

variable {id i : Nat} {rule : Rule} {span : Span} {cs : List Tree} {token : Token} {c d : Tree}

theorem exists_outline (h : (node id rule span cs).FollowsProduction) (hrule : rule.isFormed) :
    ∃ pieces ∈ rule.outlines, Spells Repeats pieces (cs.map face) := by
  obtain ⟨p, hp, hnode, hspells⟩ := h
  exact ⟨_, p.mem_outlines hp rule hnode hrule, hspells⟩

theorem among (h : (node id rule span cs).FollowsProduction) (hrule : rule.isFormed)
    {tokens : Bool} {rules : Rule → Bool}
    (hrules : rule.outlines.all (·.all (Piece.leaves tokens rules))) (hc : c ∈ cs) :
    c.face.among tokens rules := by
  obtain ⟨pieces, hpieces, hspells⟩ := h.exists_outline hrule
  exact hspells.forall_of_leaves (all_eq_true.1 hrules pieces hpieces) _ (mem_map_of_mem hc)

theorem text_of_negation (h : (node id .notTest span [leaf i token, c]).FollowsProduction) :
    token.text = "not" := by
  obtain ⟨pieces, hpieces, hspells⟩ := h.exists_outline rfl
  simp only [Rule.outlines, mem_cons, not_mem_nil, or_false] at hpieces
  rcases hpieces with rfl | rfl
  · obtain ⟨_, token', _, heq, hkind, hlexed, -⟩ := hspells.tree_of_token
    cases heq
    exact hlexed.spelled "not" (by rw [hkind]; decide)
  · obtain ⟨_, _, heq, hface, -⟩ := hspells.tree_of_visited (by decide)
    cases heq
    cases hface

theorem text_of_power (h : (node id .power span [c, leaf i token, d]).FollowsProduction) :
    token.text = "**" := by
  obtain ⟨pieces, hpieces, hspells⟩ := h.exists_outline rfl
  simp only [Rule.outlines, mem_cons, not_mem_nil, or_false] at hpieces
  rcases hpieces with rfl | rfl
  · obtain ⟨_, _, heq, -, hrest⟩ := hspells.tree_of_visited (by decide)
    cases heq
    obtain ⟨_, token', _, heq, hkind, hlexed, -⟩ := hrest.tree_of_token
    cases heq
    exact hlexed.spelled "**" (by rw [hkind]; decide)
  · obtain ⟨_, _, heq, -, hrest⟩ := hspells.tree_of_visited (by decide)
    cases heq
    cases hrest.tree_nil

end FollowsProduction

end Tree

/-- The words and signs of the operators of comparisons. -/
def Terminal.comparisons : List (List Terminal) :=
  [[.less], [.greater], [.equalEqual], [.greaterEqual], [.lessEqual], [.notEqual], [.inWord],
   [.notWord, .inWord], [.isWord], [.isWord, .notWord]]

theorem Spells.tree_of_tokens {runs : Run → List Face → Prop} {kinds : List Terminal} {cs : List Tree}
    (h : Spells runs (kinds.map .token) (cs.map Tree.face)) :
    (∀ c ∈ cs, c.isNode = false) ∧ (cs.filterMap Tree.token?).map (·.kind) = kinds ∧
      ∀ t ∈ cs.filterMap Tree.token?, t.Lexed := by
  induction kinds generalizing cs with
  | nil =>
    rw [h.tree_nil]
    exact ⟨nofun, rfl, nofun⟩
  | cons kind kinds ih =>
    obtain ⟨id, token, rest, rfl, rfl, hlexed, hrest⟩ := h.tree_of_token
    obtain ⟨hnodes, hkinds, hall⟩ := ih hrest
    refine ⟨forall_mem_cons.2 ⟨rfl, hnodes⟩, ?_, forall_mem_cons.2 ⟨hlexed, hall⟩⟩
    rw [← hkinds]
    rfl

theorem Tree.FollowsProduction.exists_comparison {id : Nat} {span : Span} {cs : List Tree}
    (h : (node id .compOp span cs).FollowsProduction) :
    (∀ c ∈ cs, c.isNode = false) ∧ ∃ kinds ∈ Terminal.comparisons,
      (cs.filterMap token?).map (·.text) = kinds.map (·.token.text) := by
  obtain ⟨pieces, hpieces, hspells⟩ := h.exists_outline rfl
  have houtlines : Rule.outlines .compOp = Terminal.comparisons.map (·.map .token) := rfl
  rw [houtlines] at hpieces
  obtain ⟨kinds, hkinds, rfl⟩ := mem_map.1 hpieces
  obtain ⟨hnodes, rfl, hlexed⟩ := hspells.tree_of_tokens
  refine ⟨hnodes, _, hkinds, ?_⟩
  rw [map_map]
  refine map_congr_left fun t ht => ?_
  have hspelled : ∀ kinds ∈ Terminal.comparisons, ∀ k ∈ kinds, (k, k.token.text) ∈ Terminal.spelled := by
    decide
  exact (hlexed t ht).spelled _ (hspelled _ hkinds _ (mem_map_of_mem ht))

end QueryScribe
