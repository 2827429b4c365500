import Mathlib.Tactic.IntervalCases
import QueryScribe.Proofs.Lexeme.LineBreak
import QueryScribe.Proofs.Lexing

/-!
# Tokens before a separator

A number, a keyword or a sign that stands before a separator is found again, as long as a reader accepts
it at all (`scan_token`). Opening brackets and signs that may stand before an operand need no separator:
what follows them must only not make a longer sign of them.
-/

namespace QueryScribe

open List

open Terminal

namespace Lexer

open Text

/-! ## Numbers -/

section Numbers

variable {accepts : Terminal → Bool} {w rest : List Char} {d : Char}

variable {n : Nat} {lower upper : Char} {digit : Char → Bool} {k : Terminal}
  {length? : List Char → Option Nat}

theorem tail_of_runs {P : Char → Prop} {next? : List Char → Option Nat} (hstart : Starts P next?)
    (h : followed (runs isDigit) next? w = some n) :
    ∃ c cs, w.drop (run isDigit w) = c :: cs ∧ P c := by
  obtain ⟨k, m, hk, hm, -⟩ := followed_eq_some.1 h
  rw [runs_eq] at hk
  split at hk
  · cases hk
  · exact hstart _ m (Option.some.inj hk ▸ hm)

/-- What follows the first digits of a number with a point or an exponent. -/
theorem tail_of_float (h : float? w = some n) :
    ∃ c cs, w.drop (run isDigit w) = c :: cs ∧ c ∈ ['.', 'e', 'E'] := by
  have hpoint {digits? : List Char → Option Nat} : Starts (· ∈ ['.', 'e', 'E']) (fraction digits?) :=
    (starts_one fun c hc => by simp [beq_iff_eq.1 hc]).followed
  rw [float?_eq] at h
  rcases (Option.orElse_eq_some _ _ _).1 h with h | ⟨-, h⟩
  · exact tail_of_runs hpoint h
  rcases (Option.orElse_eq_some _ _ _).1 h with h | ⟨-, h⟩
  · obtain ⟨c, cs, rfl, hc⟩ := starts_one (P := (· = '.')) (fun c hc => beq_iff_eq.1 hc) |>.followed _ _ h
    have hrun : run isDigit (c :: cs) = 0 := by
      have hdigit : isDigit '.' = false := by decide
      simp [run, hc, hdigit]
    exact ⟨c, cs, by rw [hrun, drop_zero], by simp [hc]⟩
  · refine tail_of_runs (starts_one fun c hc => ?_).followed h
    rcases Bool.or_eq_true_iff.1 hc with hc | hc <;> simp [beq_iff_eq.1 hc]

theorem tail_of_imag (h : imag? w = some n) :
    ∃ c cs, w.drop (run isDigit w) = c :: cs ∧ c ∈ ['.', 'e', 'E', 'j', 'J'] := by
  rw [imag?_eq] at h
  rcases (Option.orElse_eq_some _ _ _).1 h with h | ⟨-, h⟩
  · refine tail_of_runs (starts_one fun c hc => ?_) h
    rcases Bool.or_eq_true_iff.1 hc with hc | hc <;> (rw [beq_iff_eq.1 hc]; decide)
  · obtain ⟨k, m, hk, -⟩ := followed_eq_some.1 h
    obtain ⟨c, cs, htail, hc⟩ := tail_of_float hk
    exact ⟨c, cs, htail, mem_append_left ['j', 'J'] hc⟩

theorem numbers_of_tail
    (h : ∀ c cs, w.drop (run isDigit w) = c :: cs → c ∉ ['.', 'e', 'E', 'j', 'J']) :
    float? w = none ∧ imag? w = none := by
  rw [Option.eq_none_iff_forall_ne_some, Option.eq_none_iff_forall_ne_some]
  constructor
  · intro n hn
    obtain ⟨c, cs, htail, hc⟩ := tail_of_float hn
    exact h c cs htail (mem_append_left ['j', 'J'] hc)
  · intro n hn
    obtain ⟨c, cs, htail, hc⟩ := tail_of_imag hn
    exact h c cs htail hc

theorem imag?_of_float (h : float? w = some w.length) : imag? w = none := by
  rw [Option.eq_none_iff_forall_ne_some, imag?_eq]
  intro n hn
  rcases (Option.orElse_eq_some _ _ _).1 hn with hn | ⟨-, hn⟩
  · -- After the digits there is no mark, since the number goes on there.
    obtain ⟨c, cs, htail, hc⟩ := tail_of_float h
    obtain ⟨c', cs', htail', hc'⟩ := tail_of_runs (starts_one fun _ => id) hn
    have hne : ∀ c ∈ ['.', 'e', 'E'], (c == 'j' || c == 'J') = false :=
      all_iff_forall_prop.1 (by decide)
    cases htail.symm.trans htail'
    cases (hne c hc).symm.trans hc'
  · obtain ⟨k, m, hk, hm, -⟩ := followed_eq_some.1 hn
    cases h.symm.trans hk
    simp [one] at hm

theorem front_of_based (h : based? lower upper digit w = some n) :
    ∃ c ∈ [lower, upper], ∃ cs, w = '0' :: c :: cs := by
  rw [based?_eq] at h
  rcases w with _ | ⟨a, _ | ⟨c, cs⟩⟩
  · cases h
  · simp at h
  · simp only [followed_one_cons] at h
    split at h
    · rename_i ha
      split at h
      · rename_i hc
        exact ⟨c, by simpa using hc, cs, by rw [beq_iff_eq.1 ha]⟩
      · cases h
    · cases h

theorem numbers_of_based
    (hlower : ∀ c ∈ [lower, upper], isDigit c = false ∧ c ∉ ['.', 'e', 'E', 'j', 'J'])
    (h : based? lower upper digit w = some n) : float? w = none ∧ imag? w = none := by
  obtain ⟨c, hmem, cs, rfl⟩ := front_of_based h
  obtain ⟨hdigit, hne⟩ := hlower c hmem
  have hrun : run isDigit ('0' :: c :: cs) = 1 := by
    have hzero : isDigit '0' := by decide
    simp [run, hdigit, hzero]
  refine numbers_of_tail fun c' cs' htail => ?_
  rw [hrun] at htail
  cases htail
  exact hne

theorem based?_of_based (h : based? lower upper digit w = some n) (lower' upper' : Char)
    (hne : ∀ c ∈ [lower, upper], c ∉ [lower', upper']) (digit' : Char → Bool) :
    based? lower' upper' digit' w = none := by
  rw [Option.eq_none_iff_forall_ne_some]
  intro n hn
  obtain ⟨c, hc, cs, rfl⟩ := front_of_based h
  obtain ⟨c', hc', cs', heq⟩ := front_of_based hn
  cases heq
  exact hne c hc hc'

theorem based?_of_digits (h : ∀ c ∈ w, isDigitOrUnderscore c) (lower upper : Char)
    (hne : ∀ c ∈ [lower, upper], isDigitOrUnderscore c = false) (digit : Char → Bool) :
    based? lower upper digit w = none := by
  rw [Option.eq_none_iff_forall_ne_some]
  intro n hn
  obtain ⟨c, hc, cs, rfl⟩ := front_of_based hn
  cases (hne c hc).symm.trans (h c (by simp))

theorem mem_digits_of_le {c : Char} (h : '1' ≤ c) (h' : c ≤ '9') :
    c ∈ ['1', '2', '3', '4', '5', '6', '7', '8', '9'] := by
  have hlower : 49 ≤ c.toNat := h
  have hupper : c.toNat ≤ 57 := h'
  rw [← Char.ofNat_toNat c]
  interval_cases c.toNat <;> decide

/-- A decimal integer that is the whole text starts with a digit and consists of digits and
underscores. -/
theorem digits_of_decimal (h : decimal? w = some w.length) :
    ∃ c cs, w = c :: cs ∧ c ∈ ['0', '1', '2', '3', '4', '5', '6', '7', '8', '9'] ∧
      ∀ c ∈ w, isDigitOrUnderscore c := by
  rw [decimal?_eq] at h
  cases w with
  | nil => cases h
  | cons a cs =>
    rcases (Option.orElse_eq_some _ _ _).1 h with h | ⟨-, h⟩
    · obtain ⟨_, _, heq, hzero, hlength⟩ := one_eq_some.1 h
      cases heq
      obtain rfl : cs = [] := by simpa using hlength
      rw [beq_iff_eq.1 hzero]
      exact ⟨'0', [], rfl, .head _, fun c hc => mem_singleton.1 hc ▸ by decide⟩
    · rw [followed_one_cons] at h
      split at h
      · rename_i hrange
        rw [Bool.and_eq_true, decide_eq_true_eq, decide_eq_true_eq] at hrange
        have hmem := mem_digits_of_le hrange.1 hrange.2
        have hdigit : ∀ c ∈ ['1', '2', '3', '4', '5', '6', '7', '8', '9'],
            isDigitOrUnderscore c := all_iff_forall_prop.1 (by decide)
        have hrun : run isDigitOrUnderscore cs = cs.length := by
          have hlength : 1 + run isDigitOrUnderscore cs = cs.length + 1 := Option.some.inj h
          omega
        have hself : cs.takeWhile isDigitOrUnderscore = cs :=
          ( takeWhile_prefix isDigitOrUnderscore).eq_of_length hrun
        exact ⟨a, cs, rfl, .tail _ hmem,
          forall_mem_cons.2 ⟨hdigit a hmem, takeWhile_eq_self_iff.1 hself⟩⟩
      · cases h

/-- The kinds of numbers. -/
def numberKinds : List Terminal :=
  [.imagNumber, .floatNumber, .hexNumber, .octNumber, .binNumber, .decNumber]

theorem stop_of_mem_classes {e : Terminal × (List Char → Option Nat)} (he : e ∈ classes)
    (hk : e.1 ∈ numberKinds) (hd : d ∈ separators) : e.2 (w ++ d :: rest) = e.2 w := by
  rcases number_of_mem_classes he with ⟨-, hstable, -⟩ | ⟨ht, -⟩ | ⟨ht, -⟩ | ⟨ht, -⟩
  · exact hstable.stop hd
  all_goals exact absurd (ht ▸ hk) (by decide)

/-- Where a number is the whole text, no class of numbers before it is found. -/
theorem classes_of_number (hk : k ∈ numberKinds) (hmem : (k, length?) ∈ classes)
    (h : length? w = some w.length) :
    ∀ e ∈ classes.takeWhile (·.1 ≠ k), e.1 ∈ numberKinds → e.2 w = none := by
  simp only [numberKinds, mem_cons, not_mem_nil, or_false] at hk
  rcases hk with rfl | rfl | rfl | rfl | rfl | rfl
  · nofun
  · obtain rfl := eq_of_mem_classes hmem (.tail _ (.head _))
    simp [classes, imag?_of_float h]
  · obtain rfl := eq_of_mem_classes hmem (.tail _ (.tail _ (.head _)))
    have hnumbers := numbers_of_based (all_iff_forall_prop.1 (by decide)) h
    simp [classes, hnumbers]
  · obtain rfl := eq_of_mem_classes hmem (.tail _ (.tail _ (.tail _ (.head _))))
    have hnumbers := numbers_of_based (all_iff_forall_prop.1 (by decide)) h
    have hhex := based?_of_based h 'x' 'X' (all_iff_forall_prop.1 (by decide))
    simp [classes, hnumbers, hhex]
  · obtain rfl := eq_of_mem_classes hmem (.tail _ (.tail _ (.tail _ (.tail _ (.head _)))))
    have hnumbers := numbers_of_based (all_iff_forall_prop.1 (by decide)) h
    have hhex := based?_of_based h 'x' 'X' (all_iff_forall_prop.1 (by decide))
    have hoct := based?_of_based h 'o' 'O' (all_iff_forall_prop.1 (by decide))
    simp [classes, hnumbers, hhex, hoct]
  · have hdecimal : length? = decimal? := eq_of_mem_classes hmem (by simp [classes])
    rw [hdecimal] at h
    obtain ⟨-, -, -, -, hdigits⟩ := digits_of_decimal h
    have hstops : ∀ c ∈ ['.', 'e', 'E', 'j', 'J'], isDigitOrUnderscore c = false :=
      all_iff_forall_prop.1 (by decide)
    have hnumbers : float? w = none ∧ imag? w = none := by
      refine numbers_of_tail fun c cs htail hc => ?_
      have hdigit := hdigits c (List.mem_of_mem_drop (htail ▸ List.mem_cons_self))
      rw [hstops c hc] at hdigit
      cases hdigit
    have hhex := based?_of_digits hdigits 'x' 'X' (all_iff_forall_prop.1 (by decide))
    have hoct := based?_of_digits hdigits 'o' 'O' (all_iff_forall_prop.1 (by decide))
    have hbin := based?_of_digits hdigits 'b' 'B' (all_iff_forall_prop.1 (by decide))
    simp [classes, numberKinds, hnumbers, hhex, hoct, hbin]

theorem exists_classes_eq (hk : k ∈ numberKinds) :
    ∃ length? back, classes = classes.takeWhile (·.1 ≠ k) ++ (k, length?) :: back := by
  simp only [numberKinds, mem_cons, not_mem_nil, or_false] at hk
  rcases hk with rfl | rfl | rfl | rfl | rfl | rfl <;> exact ⟨_, _, rfl⟩

theorem numberKinds_of_mem_takeWhile : ∀ k ∈ numberKinds, k ≠ .decNumber →
    ∀ t ∈ (classes.takeWhile (·.1 ≠ k)).map (·.1), t ∈ numberKinds := by decide

theorem quoted_of_digit {c : Char} (hc : c ∈ ['0', '1', '2', '3', '4', '5', '6', '7', '8', '9'])
    (cs : List Char) :
    string? (c :: cs) = none ∧ longString? (c :: cs) = none ∧ newline? (c :: cs) = none := by
  have hdigits : ∀ c ∈ ['0', '1', '2', '3', '4', '5', '6', '7', '8', '9'],
      startsString c = false ∧ startsBreak c = false :=
    all_iff_forall_prop.1 (by decide)
  obtain ⟨hquote, hbreak⟩ := hdigits c hc
  obtain ⟨hshort, hlong⟩ := strings_of_first hquote cs
  refine ⟨hshort, hlong, ?_⟩
  rw [Option.eq_none_iff_forall_ne_some]
  intro n hn
  rw [startsBreak_of_newline? hn] at hbreak
  cases hbreak

/-- A number that is a text of its own is found before a separator. -/
theorem scan_number (hk : k ∈ numberKinds) (hmem : (k, length?) ∈ classes)
    (h : length? w = some w.length) (haccepts : accepts k) (hd : d ∈ separators) :
    scan accepts (w ++ d :: rest) = some ⟨some k, w.length⟩ := by
  obtain ⟨length?', back, hclasses⟩ := exists_classes_eq hk
  obtain rfl : length?' = length? :=
    eq_of_mem_classes (hclasses ▸ mem_append_right _ (.head _)) hmem
  refine scan_of_class _ hclasses (fun e he => ?_) ?_ (by simp [haccepts])
  · have hmem' := ( takeWhile_prefix _).subset he
    by_cases hnumber : e.1 ∈ numberKinds
    · rw [stop_of_mem_classes hmem' hnumber hd]
      exact classes_of_number hk hmem h e he hnumber
    · -- Only decimal integers are looked for after strings and line breaks.
      obtain rfl : k = .decNumber := by
        by_contra hne
        exact hnumber (numberKinds_of_mem_takeWhile k hk hne _ (mem_map_of_mem he))
      have hdecimal : length?' = decimal? := eq_of_mem_classes hmem (by simp [classes])
      obtain ⟨c, cs, rfl, hc, -⟩ := digits_of_decimal (hdecimal ▸ h)
      obtain ⟨hshort, hlong, hbreak⟩ := quoted_of_digit hc (cs ++ d :: rest)
      simp only [classes, mem_cons, not_mem_nil, or_false] at hmem'
      rcases hmem' with rfl | rfl | rfl | rfl | rfl | rfl | rfl | rfl | rfl
      case inr.inr.inr.inr.inr.inl => exact hshort
      case inr.inr.inr.inr.inr.inr.inl => exact hlong
      case inr.inr.inr.inr.inr.inr.inr.inl => exact hbreak
      all_goals exact absurd (by decide) hnumber
  · rw [← h]
    exact stop_of_mem_classes hmem hk hd

end Numbers

/-! ## Signs and keywords -/

section Signs

variable {accepts : Terminal → Bool} {w rest : List Char} {d : Char} {text : String}

/-- Whether some sign or keyword goes on with a character after a text. -/
def goesOn (w : List Char) (d : Char) : Bool :=
  signs.any fun text => (w ++ [d]).isPrefixOf text.toList

theorem front_of_goesOn (h : goesOn w d = false) (hmem : text ∈ signs)
    (hfront : text.toList <+: w ++ d :: rest) : text.toList <+: w := by
  have hnot : ¬ w ++ [d] <+: text.toList := by
    intro hlong
    refine any_eq_false.1 h text hmem ?_
    exact isPrefixOf_iff_prefix.2 hlong
  rw [append_cons] at hfront
  rcases prefix_or_prefix_of_prefix hfront (prefix_append _ _) with hshort | hlong
  · rcases prefix_concat_iff.1 hshort with heq | hshort
    · exact absurd (heq ▸ prefix_rfl) hnot
    · exact hshort
  · exact absurd hlong hnot

theorem find?_spelled : ∀ e ∈ spelled,
    spelled.find? (fun e' => e'.2 == e.2) = some e ∧
      spelled.find? (fun e' => e'.2.toList.isPrefixOf e.2.toList) = some e ∧
        ∀ text ∈ assignments, ¬ text.toList <+: e.2.toList := by
  decide +kernel

variable {k : Terminal}

theorem wordKind_of_mem_spelled (hmem : (k, text) ∈ spelled) (haccepts : accepts k) :
    wordKind accepts text = k := by
  rw [wordKind, ofWord?, find?_of_imp (find?_spelled _ hmem).1 _ fun e _ he => (Bool.and_eq_true_iff.1 he).1]
  · rfl
  · simp [haccepts]

/-- Where no sign or keyword goes on after a spelling, no operator that assigns is found, and the
spelling is found if it is accepted. -/
theorem spelled_of_goesOn (hmem : (k, text) ∈ spelled) (haccepts : accepts k)
    (hgoesOn : goesOn text.toList d = false) (rest : List Char) :
    oneOf? assignments (text.toList ++ d :: rest) = none ∧
      (spelled.find? fun (t, text') =>
        accepts t && text'.toList.isPrefixOf (text.toList ++ d :: rest)) = some (k, text) := by
  constructor
  · refine Option.map_eq_none_iff.2 (find?_eq_none.2 fun text' htext' hfront => ?_)
    exact (find?_spelled _ hmem).2.2 text' htext'
      (front_of_goesOn hgoesOn (mem_append_left _ htext') ( isPrefixOf_iff_prefix.1 hfront))
  · refine find?_of_imp (find?_spelled _ hmem).2.1 ?_ fun e he hfront => ?_
    · simp [haccepts]
    · rw [Bool.and_eq_true, isPrefixOf_iff_prefix] at hfront
      exact isPrefixOf_iff_prefix.2
        (front_of_goesOn hgoesOn (mem_append_right _ (mem_map_of_mem he)) hfront.2)

theorem findSome?_classes {cs : List Char} {c : Char} (hnumber : startsNumber c = false)
    (hstrings : string? (c :: cs) = none ∧ longString? (c :: cs) = none)
    (hbreak : startsBreak c = false) :
    (classes.findSome? fun (t, length?) => if t == .newline || accepts t then
      (length? (c :: cs)).map (Lexeme.mk (some t)) else none) = none := by
  refine findSome?_eq_none_iff.2 fun ⟨t, length?⟩ hmem => ?_
  have hnone : length? (c :: cs) = none := by
    rw [Option.eq_none_iff_forall_ne_some]
    intro n hn
    rcases class_of_first hmem hnumber hn with ⟨-, hn⟩ | ⟨-, hn⟩ | ⟨-, hn⟩
    · cases hstrings.1.symm.trans hn
    · cases hstrings.2.symm.trans hn
    · rw [startsBreak_of_newline? hn] at hbreak
      cases hbreak
  dsimp only
  rw [hnone]
  split <;> rfl

theorem continuation?_of_first {c : Char} (hc : c ≠ '\\') (cs : List Char) :
    continuation? (c :: cs) = none := by
  rw [Option.eq_none_iff_forall_ne_some]
  intro n hn
  obtain ⟨rest, ending, -, heq, -⟩ := continuation?_eq_some.1 hn
  exact hc (List.cons.inj heq).1

/-- A character with which only a sign starts. -/
def startsSign (c : Char) : Bool :=
  !(startsNumber c || startsString c || startsBreak c || c == '\\' ||
    isWordStart c || isGap c)

theorem scan_sign (hmem : (k, text) ∈ spelled) (haccepts : accepts k)
    (hgoesOn : goesOn text.toList d = false) (hfirst : text.toList.head?.any startsSign) :
    scan accepts (text.toList ++ d :: rest) = some ⟨some k, text.length⟩ := by
  obtain ⟨hassign, hspelled⟩ := spelled_of_goesOn hmem haccepts hgoesOn rest
  cases htext : text.toList with
  | nil => rw [htext] at hfirst; cases hfirst
  | cons c cs =>
    rw [htext] at hfirst hassign hspelled
    simp only [head?_cons, Option.any_some, startsSign, Bool.not_eq_true', Bool.or_eq_false_iff,
      beq_eq_false_iff_ne] at hfirst
    obtain ⟨⟨⟨⟨⟨hnumber, hquote⟩, hbreak⟩, hjoin⟩, hword⟩, hgap⟩ := hfirst
    have hstrings := strings_of_first hquote (cs ++ d :: rest)
    have hgap? : gap? (c :: (cs ++ d :: rest)) = none := by simp [gap?, run, hgap]
    unfold scan
    rw [cons_append] at hassign hspelled ⊢
    rw [findSome?_classes hnumber hstrings hbreak, continuation?_of_first hjoin, word?, hword, hgap?,
      hassign, hspelled]
    simp

/-- What starts with two letters or more and a character that is no quote is no string. -/
theorem strings_of_word (hlength : 2 ≤ w.length) (hword : ∀ c ∈ w, isWord c)
    (hd : isQuote d = false) (rest : List Char) :
    string? (w ++ d :: rest) = none ∧ longString? (w ++ d :: rest) = none := by
  refine strings_eq_none fun letters q rest' hletters hq heq => ?_
  -- The quote of a string would be among the first three characters.
  have hshort := (mem_markLetters_of_isMark hletters).1
  have hnth : (w ++ d :: rest)[letters.length]? = some q := by simp [heq]
  rcases Nat.lt_or_ge letters.length w.length with hlt | hge
  · rw [getElem?_append_left hlt] at hnth
    have hletter := hword q (mem_of_getElem? hnth)
    rw [isWord_of_isQuote hq] at hletter
    cases hletter
  · obtain hlast : letters.length = w.length := by omega
    rw [hlast] at hnth
    obtain rfl : d = q := by simpa using hnth
    rw [hq] at hd
    cases hd

/-- A text of letters and digits that starts with a letter. -/
def isKeyword (w : List Char) : Bool :=
  2 ≤ w.length && w.all isWord && w.head?.any fun c =>
    isWordStart c && !(startsNumber c || startsBreak c || c == '\\' || isGap c)

theorem scan_keyword (hmem : (k, text) ∈ spelled) (haccepts : accepts k)
    (hgoesOn : goesOn text.toList d = false) (hd : d ∈ separators) (hkeyword : isKeyword text.toList) :
    scan accepts (text.toList ++ d :: rest) = some ⟨some k, text.length⟩ := by
  obtain ⟨hassign, hspelled⟩ := spelled_of_goesOn hmem haccepts hgoesOn rest
  have hquote : ∀ d ∈ separators, isQuote d = false := all_iff_forall_prop.1 (by decide)
  simp only [isKeyword, Bool.and_eq_true, decide_eq_true_eq, all_eq_true] at hkeyword
  obtain ⟨⟨hlength, hletters⟩, hfirst⟩ := hkeyword
  have hstrings := strings_of_word hlength hletters (hquote d hd) rest
  have htake : String.ofList ((text.toList ++ d :: rest).take text.length) = text := by
    rw [← String.length_toList, take_left, String.ofList_toList]
  have hkind := wordKind_of_mem_spelled hmem haccepts
  cases htext : text.toList with
  | nil => rw [htext] at hfirst; cases hfirst
  | cons c cs =>
    rw [htext, cons_append] at hassign hspelled hstrings htake
    rw [htext] at hfirst hletters
    simp only [head?_cons, Option.any_some, Bool.and_eq_true, Bool.not_eq_true',
      Bool.or_eq_false_iff, beq_eq_false_iff_ne] at hfirst
    obtain ⟨hstart, ⟨⟨hnumber, hbreak⟩, hjoin⟩, hgap⟩ := hfirst
    have hword : word? (c :: (cs ++ d :: rest)) = some text.length := by
      have hrun : run isWord cs = cs.length := by
        rw [run, takeWhile_eq_self_iff.2 (forall_mem_cons.1 hletters).2]
      rw [← cons_append, stable_word.stop hd, word?, if_pos hstart, hrun, ← String.length_toList,
        htext, length_cons, Nat.add_comm]
    have hgap? : gap? (c :: (cs ++ d :: rest)) = none := by simp [gap?, run, hgap]
    unfold scan
    rw [cons_append, findSome?_classes hnumber hstrings hbreak, continuation?_of_first hjoin,
      hword, hgap?, hassign, hspelled, Option.map_some, htake]
    cases accepts .name with
    | true => exact congrArg (fun k => some (Lexeme.mk (some k) text.length)) hkind
    | false => simp

theorem scan_blank (hd : isGap d = false) : scan accepts (' ' :: d :: rest) = some ⟨none, 1⟩ := by
  have hstrings := strings_of_first (c := ' ') (by decide) (d :: rest)
  have hgap : isGap ' ' := by decide
  have hword : isWordStart ' ' = false := by decide
  have hgap? : gap? (' ' :: d :: rest) = some 1 := by simp [gap?, run, hgap, hd]
  unfold scan
  rw [findSome?_classes (by decide) hstrings (by decide), continuation?_of_first (by decide), word?,
    hword, hgap?]
  simp

end Signs

end Lexer

/-! ## All tokens -/

namespace Terminal

/-- Opening brackets and signs after which an operand may stand at once. -/
def isTight : Terminal → Bool
  | .leftParen | .leftBracket | .leftBrace | .plus | .minus | .tilde => true
  | _ => false

/-- The terminals of numbers, truth values, operators, brackets and punctuation. -/
def elementary : List Terminal :=
  Lexer.numberKinds ++
    [.trueWord, .falseWord, .noneWord, .leftParen, .rightParen, .leftBracket, .rightBracket,
     .leftBrace, .rightBrace, .colon, .comma, .semicolon, .less, .greater, .equalEqual, .greaterEqual,
     .lessEqual, .notEqual, .bar, .caret, .ampersand, .leftShift, .rightShift, .plus, .minus, .tilde,
     .star, .doubleStar, .slash, .doubleSlash, .percent, .at, .andWord, .inWord, .isWord, .notWord,
     .orWord]

/-- What may stand right after a token: a separator, or after an opening bracket or a sign anything
that does not make a longer sign of it. -/
def EndsBefore (k : Terminal) (d : Char) : Prop :=
  d ∈ Lexer.separators ∨ (k.isTight = true ∧ d ≠ '=' ∧ d ≠ '>')

variable {k : Terminal}

theorem number_or_spelled (hk : k ∈ elementary) :
    k ∈ Lexer.numberKinds ∨ ∃ text, (k, text) ∈ spelled := by
  have hcases : ∀ k ∈ elementary, k ∈ Lexer.numberKinds ∨ k ∈ spelled.map (·.1) := by decide
  rcases hcases k hk with hnumber | hspelled
  · exact .inl hnumber
  · obtain ⟨⟨_, text⟩, hmem, rfl⟩ := mem_map.1 hspelled
    exact .inr ⟨text, hmem⟩

theorem sign_or_keyword : ∀ e ∈ spelled, e.1 ∈ elementary →
    e.2.toList.head?.any Lexer.startsSign ∨
      (Lexer.isKeyword e.2.toList ∧ e.1.isTight = false) := by
  decide +kernel

theorem goesOn_separator {text : String} (hmem : (k, text) ∈ spelled) {d : Char}
    (hd : d ∈ Lexer.separators) : Lexer.goesOn text.toList d = false := by
  have hne : text.toList ≠ [] := ne_nil_of_length_pos (Lexer.length_pos_of_mem_spelled _ hmem)
  refine any_eq_false.2 fun sign hsign hfront => ?_
  obtain ⟨rest, hrest⟩ := isPrefixOf_iff_prefix.1 hfront
  -- A separator could only be the first character of a sign, where the spelling stands.
  refine Lexer.notMem_of_mem_signs sign hsign d hd ?_
  rw [← hrest, append_assoc, tail_append_of_ne_nil hne]
  exact mem_append_right _ (.head _)

theorem goesOn_tight {text : String} (hmem : (k, text) ∈ spelled) (hk : k.isTight) {d : Char}
    (hd : d ≠ '=' ∧ d ≠ '>') :
    Lexer.goesOn text.toList d = false := by
  have hnext : ∀ e ∈ spelled, e.1.isTight → ∀ sign ∈ Lexer.signs,
      e.2.toList.isPrefixOf sign.toList →
        ((sign.toList.drop e.2.length).head?.all (· ∈ ['=', '>'])) := by
    decide +kernel
  refine any_eq_false.2 fun sign hsign hfront => ?_
  obtain ⟨rest, hrest⟩ := isPrefixOf_iff_prefix.1 hfront
  have hsplit : sign.toList = text.toList ++ d :: rest := by rw [← hrest]; simp
  have hdrop := hnext _ hmem hk sign hsign
    ( isPrefixOf_iff_prefix.2 (hsplit ▸ prefix_append _ _))
  rw [hsplit, ← String.length_toList, drop_left] at hdrop
  simp [hd] at hdrop

end Terminal

/-- A token is found again before what may stand right after it. -/
theorem Lexer.scan_token {accepts : Terminal → Bool} {t : Token} (ht : t.Lexed)
    (hk : t.kind ∈ elementary) (haccepts : accepts t.kind) {d : Char}
    (hd : t.kind.EndsBefore d) (rest : List Char) :
    scan accepts (t.text.toList ++ d :: rest) = some ⟨some t.kind, t.text.length⟩ := by
  rcases number_or_spelled hk with hnumber | ⟨text, hmem⟩
  · have hd : d ∈ separators := by
      rcases hd with hd | ⟨htight, -⟩
      · exact hd
      · have hloose : ∀ k ∈ numberKinds, k.isTight = false := by decide
        rw [hloose _ hnumber] at htight
        cases htight
    obtain ⟨length?, back, hclasses⟩ := exists_classes_eq hnumber
    have hmem : (t.kind, length?) ∈ classes :=
      hclasses ▸ mem_append_right _ (.head _)
    obtain ⟨cs, n, hn, htext⟩ := ht.scanned length? hmem
    have hle := (measures_of_mem_classes hmem cs n hn).2
    have hlength : (cs.take n).length = n := by
      rw [length_take]
      omega
    rw [htext, String.toList_ofList, ← String.length_toList, String.toList_ofList]
    refine scan_number hnumber hmem ?_ haccepts hd
    rcases number_of_mem_classes hmem with ⟨-, hstable, -⟩ | ⟨hkind, -⟩ | ⟨hkind, -⟩ | ⟨hkind, -⟩
    · rw [hlength]
      exact hstable.cut ((take_append_drop n cs).symm ▸ hn) (Nat.le_of_eq hlength.symm)
    all_goals exact absurd (hkind ▸ hnumber) (by decide)
  · rw [ht.spelled text hmem]
    have hgoesOn : goesOn text.toList d = false := by
      rcases hd with hd | ⟨htight, hne⟩
      · exact goesOn_separator hmem hd
      · exact goesOn_tight hmem htight hne
    rcases sign_or_keyword _ hmem hk with hsign | ⟨hkeyword, hloose⟩
    · exact scan_sign hmem haccepts hgoesOn hsign
    · rcases hd with hd | ⟨htight, -⟩
      · exact scan_keyword hmem haccepts hgoesOn hd hkeyword
      · rw [hloose] at htight
        cases htight

end QueryScribe
