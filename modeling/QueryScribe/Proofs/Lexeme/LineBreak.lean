import Mathlib.Data.List.TakeWhile
import QueryScribe.Proofs.Lexeme.Quoted

/-!
# Lexemes before a separator

A separator comes right after a lexeme of a text. Then the lexemes before it are found as they were
(`scan_before`): numbers, words and signs end at separators, and strings that have ended are not
touched. That is so too for a reader that accepts less than the first, as long as it accepts what was
found (`Narrows`). If the separator is a line break, one that ends right there gets longer by it
(`scan_insert`).
-/

namespace QueryScribe.Lexer

open List

open Text

/-! ## Line breaks -/

section LineBreaks

variable {u v w : List Char} {st : LineEnd} {m : Nat} {cs : List Char}

theorem newline?_eq_some {n : Nat} : newline? cs = some n ↔ lineEnd .nothing cs = n ∧ 0 < n := by
  unfold newline?
  dsimp only
  split <;> simp <;> omega

/-- What is taken at once from the end of a line, and what the last line break has been followed by
then. -/
def lineStep (st : LineEnd) : List Char → Option (Nat × LineEnd)
  | [] => none
  | c :: cs =>
    if c = '\n' then some (1, .blanks)
    else if st matches .comment then some (1, .comment)
    else if c = '\r' then if cs.head? = some '\n' then some (2, .blanks) else none
    else if c = '#' then some (1, .comment)
    else if (st matches .blanks) ∧ (c == ' ' || c == '\t') then some (1, .blanks)
    else none

/-- The end of a line is taken step by step. -/
theorem lineEnd_eq (st : LineEnd) (cs : List Char) : lineEnd st cs =
    match lineStep st cs with
    | none => 0 | some (k, st') => k + lineEnd st' (cs.drop k) := by
  cases cs with
  | nil => cases st <;> simp [lineEnd, lineStep]
  | cons c cs =>
    by_cases hbreak : c = '\n'
    · subst hbreak
      simp [lineEnd, lineStep]
    by_cases hreturn : c = '\r'
    · subst hreturn
      rcases cs with _ | ⟨d, cs⟩
      · cases st <;> simp [lineEnd, lineStep]
      · by_cases hd : d = '\n'
        · subst hd
          cases st <;> simp [lineEnd, lineStep]
        · cases st <;> simp [lineEnd, lineStep, hd]
    by_cases hhash : c = '#'
    · subst hhash
      cases st <;> simp [lineEnd, lineStep]
    cases st with
    | nothing => simp [lineEnd, lineStep, hbreak, hreturn, hhash]
    | comment => simp [lineEnd, lineStep, hbreak]
    | blanks =>
      by_cases hc : (c == ' ' || c == '\t')
      · simp [lineEnd, lineStep, hbreak, hreturn, hhash, hc]
      · simp [lineEnd, lineStep, hbreak, hreturn, hhash, hc]

theorem lineEnd_of_none (h : lineStep st cs = none) : lineEnd st cs = 0 := by
  rw [lineEnd_eq, h]

theorem lineEnd_of_some {k : Nat} {st' : LineEnd}
    (h : lineStep st cs = some (k, st')) : lineEnd st cs = k + lineEnd st' (cs.drop k) := by
  rw [lineEnd_eq, h]

theorem lineStep_le {k : Nat} {st' : LineEnd}
    (h : lineStep st cs = some (k, st')) : 0 < k ∧ k ≤ cs.length ∧ st' ≠ .nothing := by
  cases cs with
  | nil => cases h
  | cons c cs =>
    simp only [lineStep] at h
    split_ifs at h with _ _ _ hnext
    · cases h
      simp
    · cases h
      simp
    · cases h
      cases cs with
      | nil => cases hnext
      | cons d cs => simp
    · cases h
      simp
    · cases h
      simp

/-- A step does not depend on what comes after the front part, unless that may cut a line break in
two. -/
theorem lineStep_append (hu : u ≠ []) (hreturn : u ≠ ['\r']) :
    lineStep st (u ++ v) = lineStep st u := by
  rcases u with _ | ⟨c, _ | ⟨d, u⟩⟩
  · exact absurd rfl hu
  · have hc : c ≠ '\r' := fun h => hreturn (by rw [h])
    simp [lineStep, hc]
  · rfl

/-- The end of a line that lies in the front part of a text does not depend on what comes after it,
unless that may start with a line break. -/
theorem lineEnd_append : ∀ {u : List Char} {st : LineEnd} {m : Nat}, lineEnd st (u ++ v) = m →
    m < u.length → u.drop m ≠ ['\r'] → lineEnd st (u ++ w) = m := by
  intro u
  induction hlength : u.length using Nat.strongRecOn generalizing u with
  | _ length ih =>
    subst hlength
    intro st m h hm hreturn
    have hu : u ≠ [] := ne_nil_of_length_pos (by omega)
    have hu' : u ≠ ['\r'] := by
      rintro rfl
      have hzero : m = 0 := by simpa using hm
      exact hreturn (by rw [hzero]; rfl)
    cases hstep : lineStep st u with
    | none =>
      rw [lineEnd_of_none ((lineStep_append hu hu').trans hstep)] at h ⊢
      exact h
    | some p =>
      obtain ⟨k, st'⟩ := p
      obtain ⟨hpos, hle, -⟩ := lineStep_le hstep
      rw [lineEnd_of_some ((lineStep_append hu hu').trans hstep),
        drop_append_of_le_length hle] at h ⊢
      have hrest : lineEnd st' (u.drop k ++ w) = m - k := by
        refine ih (u.drop k).length ?_ rfl (by omega) ?_ ?_
        · rw [length_drop]
          omega
        · rw [length_drop]
          omega
        · rw [drop_drop, Nat.add_sub_cancel' (by omega)]
          exact hreturn
      omega

/-- No line break stands where the end of a line is over. -/
theorem head?_drop_lineEnd (st : LineEnd) (cs : List Char) :
    (cs.drop (lineEnd st cs)).head? ≠ some '\n' := by
  induction hlength : cs.length using Nat.strongRecOn generalizing st cs with
  | _ length ih =>
    subst hlength
    cases hstep : lineStep st cs with
    | none =>
      rw [lineEnd_of_none hstep, drop_zero]
      intro hhead
      obtain ⟨rest, rfl⟩ := head?_eq_some_iff.1 hhead
      simp [lineStep] at hstep
    | some step =>
      obtain ⟨k, st'⟩ := step
      obtain ⟨hpos, hle, -⟩ := lineStep_le hstep
      rw [lineEnd_of_some hstep, ← drop_drop]
      refine ih (cs.drop k).length ?_ st' (cs.drop k) rfl
      rw [length_drop]
      omega

theorem lineEnd_comment_pos (hv : v ≠ []) : 0 < lineEnd .comment v := by
  cases v with
  | nil => exact absurd rfl hv
  | cons c v =>
    by_cases hc : c = '\n'
    · have hstep : lineStep .comment (c :: v) = some (1, .blanks) := by simp [lineStep, hc]
      rw [lineEnd_of_some hstep]
      omega
    · have hstep : lineStep .comment (c :: v) = some (1, .comment) := by simp [lineStep, hc]
      rw [lineEnd_of_some hstep]
      omega

/-- The end of a line that ends with the front part of a text gets longer by a line break there. -/
theorem lineEnd_insert (hv : v ≠ []) : ∀ {u : List Char} {st : LineEnd},
    st ≠ .nothing ∨ u ≠ [] → lineEnd st (u ++ v) = u.length →
      lineEnd st (u ++ '\n' :: v) = u.length + 1 := by
  intro u
  induction hlength : u.length using Nat.strongRecOn generalizing u with
  | _ length ih =>
    subst hlength
    intro st hst h
    by_cases hu : u = []
    · -- Nothing was taken after the last line break, so nothing is taken after the new one.
      subst hu
      cases st with
      | nothing => exact absurd rfl (hst.resolve_right fun h => h rfl)
      | comment =>
        have hpos := lineEnd_comment_pos hv
        rw [nil_append, length_nil] at h
        omega
      | blanks =>
        rw [nil_append, length_nil] at h
        simp [lineEnd, h]
    by_cases hu' : u = ['\r']
    · -- A carriage return is taken on its own in a comment only, which goes on then.
      subst hu'
      rw [lineEnd_eq] at h
      cases st with
      | comment =>
        have hpos := lineEnd_comment_pos hv
        simp [lineStep] at h
        omega
      | nothing => simp [lineStep] at h; grind
      | blanks => simp [lineStep] at h; grind
    cases hstep : lineStep st u with
    | none =>
      rw [lineEnd_of_none ((lineStep_append hu hu').trans hstep)] at h
      exact absurd (eq_nil_of_length_eq_zero h.symm) hu
    | some p =>
      obtain ⟨k, st'⟩ := p
      obtain ⟨hpos, hle, hst'⟩ := lineStep_le hstep
      rw [lineEnd_of_some ((lineStep_append hu hu').trans hstep),
        drop_append_of_le_length hle] at h ⊢
      have hrest : lineEnd st' (u.drop k ++ '\n' :: v) = (u.drop k).length + 1 := by
        refine ih (u.drop k).length ?_ rfl (.inl hst') ?_
        · rw [length_drop]
          omega
        · rw [length_drop]
          omega
      rw [hrest, length_drop]
      omega

end LineBreaks

/-! ## The first character -/

section First

variable {accepts : Terminal → Bool} {c : Char} {cs : List Char} {n : Nat} {l : Lexeme}

/-- Where no number starts, the scanner of a class that finds something is that of strings or line
breaks. -/
theorem class_of_first {t : Terminal} {length? : List Char → Option Nat}
    (hmem : (t, length?) ∈ classes) (hc : startsNumber c = false)
    (h : length? (c :: cs) = some n) :
    (t = .string ∧ string? (c :: cs) = some n) ∨
      (t = .longString ∧ longString? (c :: cs) = some n) ∨
      (t = .newline ∧ newline? (c :: cs) = some n) := by
  rcases number_of_mem_classes hmem with ⟨-, -, hstart⟩ | ⟨ht, rfl⟩ | ⟨ht, rfl⟩ | ⟨ht, rfl⟩
  · obtain ⟨_, _, heq, hnumber⟩ := hstart _ _ h
    cases heq
    rw [hc] at hnumber
    cases hnumber
  · exact .inl ⟨ht, h⟩
  · exact .inr (.inl ⟨ht, h⟩)
  · exact .inr (.inr ⟨ht, h⟩)

/-- What joins two lines: a backslash, blanks and one of two line ends. -/
theorem continuation?_eq_some : continuation? cs = some n ↔
    ∃ rest ending, ending ∈ [['\n'], ['\r', '\n']] ∧ cs = '\\' :: rest ∧
      ending <+: rest.drop (run isGap rest) ∧ n = 1 + run isGap rest + ending.length := by
  constructor
  · intro h
    unfold continuation? at h
    split at h
    · rename_i rest
      dsimp only at h
      split at h
      · rename_i tail hdrop
        cases h
        exact ⟨rest, ['\n'], by simp, rfl, ⟨tail, hdrop.symm⟩, by simp; omega⟩
      · rename_i tail hdrop
        cases h
        exact ⟨rest, ['\r', '\n'], by simp, rfl, ⟨tail, hdrop.symm⟩, by simp; omega⟩
      · cases h
    · cases h
  · rintro ⟨rest, ending, hending, rfl, ⟨tail, htail⟩, rfl⟩
    simp only [mem_cons, not_mem_nil, or_false] at hending
    rcases hending with rfl | rfl
    · simp only [continuation?, ← htail, cons_append, length_singleton]
      congr 1
      omega
    · simp only [continuation?, ← htail, cons_append, length_cons, length_nil]
      congr 1
      omega

theorem head?_of_front {text : String} (h : text.toList <+: c :: cs) (hpos : 0 < text.length) :
    text.toList.head? = some c := by
  cases htext : text.toList with
  | nil =>
    rw [← String.length_toList, htext] at hpos
    exact absurd hpos (Nat.lt_irrefl 0)
  | cons d rest =>
    rw [htext, cons_prefix_cons] at h
    rw [h.1]
    rfl

/-- The signs and keywords. -/
def signs : List String := assignments ++ Terminal.spelled.map (·.2)

theorem length_pos_of_mem_signs : ∀ text ∈ signs, 0 < text.length := by decide

theorem opens_of_isMark {letters rest : List Char} {q : Char} (hletters : isMark letters)
    (hq : isQuote q) (h : c :: cs = letters ++ q :: rest) :
    isQuote c ∨ isMark.kind c ∨ isMark.raw c := by
  match letters with
  | [] =>
    cases h
    exact .inl hq
  | [a] =>
    cases h
    exact .inr (Bool.or_eq_true_iff.1 hletters)
  | [a, b] =>
    cases h
    rcases Bool.or_eq_true_iff.1 hletters with h | h
    · exact .inr (.inl (Bool.and_eq_true_iff.1 h).1)
    · exact .inr (.inr (Bool.and_eq_true_iff.1 h).1)

/-- Without a mark and a quote there is no string. -/
theorem strings_eq_none (h : ∀ letters q rest, isMark letters → isQuote q →
    cs ≠ letters ++ q :: rest) : string? cs = none ∧ longString? cs = none := by
  constructor
  · rw [Option.eq_none_iff_forall_ne_some]
    intro n hn
    obtain ⟨letters, q, rest, m, hletters, hq, htext, -⟩ := string?_eq_some.1 hn
    exact h letters q rest hletters hq htext
  · rw [Option.eq_none_iff_forall_ne_some]
    intro n hn
    obtain ⟨letters, q, rest, m, hletters, hq, htext, -⟩ := longString?_eq_some.1 hn
    exact h letters q rest hletters hq htext

/-- A character with which a string may start. -/
def startsString (c : Char) : Bool := isQuote c || (isMark.kind c || isMark.raw c)

theorem strings_of_first (hc : startsString c = false) (cs : List Char) :
    string? (c :: cs) = none ∧ longString? (c :: cs) = none := by
  refine strings_eq_none fun letters q rest hletters hq htext => ?_
  have hopens := opens_of_isMark hletters hq htext
  rw [← Bool.or_eq_true, ← Bool.or_eq_true] at hopens
  cases hc.symm.trans hopens

theorem startsString_of_strings
    (h : string? (c :: cs) = some n ∨ longString? (c :: cs) = some n) : startsString c := by
  cases hc : startsString c with
  | true => rfl
  | false =>
    obtain ⟨hshort, hlong⟩ := strings_of_first hc cs
    simp [hshort, hlong] at h

/-- A character with which a line break may start. -/
def startsBreak (c : Char) : Bool := c == '\n' || c == '\r' || c == '#'

theorem startsBreak_of_newline? (h : newline? (c :: cs) = some n) : startsBreak c := by
  by_contra hc
  simp only [startsBreak, Bool.or_eq_true, beq_iff_eq, not_or] at hc
  simp [newline?, lineEnd_eq, lineStep, hc] at h

/-- What a lexeme can be by its first character. -/
inductive Begun (c : Char) (cs : List Char) (l : Lexeme) : Prop
  | number : startsNumber c = true → Begun c cs l
  | quoted : startsString c = true →
    string? (c :: cs) = some l.length ∨ longString? (c :: cs) = some l.length → Begun c cs l
  | broken : startsBreak c = true → newline? (c :: cs) = some l.length → Begun c cs l
  | joined : c = '\\' → l.kind = none → continuation? (c :: cs) = some l.length → Begun c cs l
  | word : isWordStart c = true → word? (c :: cs) = some l.length → Begun c cs l
  | gap : isGap c = true → l.kind = none → Begun c cs l
  | sign {text : String} : signs.any (·.toList.head? == some c) = true → text ∈ signs →
    text.toList <+: c :: cs → Begun c cs l

theorem Begun.ofSign {text : String} (hmem : text ∈ signs) (hfront : text.toList <+: c :: cs) :
    Begun c cs l := by
  refine .sign (any_eq_true.2 ⟨text, hmem, ?_⟩) hmem hfront
  exact beq_iff_eq.2 (head?_of_front hfront (length_pos_of_mem_signs text hmem))

theorem begun_of_scan (h : scan accepts (c :: cs) = some l) : Begun c cs l := by
  cases found_of_scan h with
  | ofClass hmem hn =>
    cases hnumber : startsNumber c with
    | true => exact .number hnumber
    | false =>
      rcases class_of_first hmem hnumber hn with ⟨-, hn⟩ | ⟨-, hn⟩ | ⟨-, hn⟩
      · exact .quoted (startsString_of_strings (.inl hn)) (.inl hn)
      · exact .quoted (startsString_of_strings (.inr hn)) (.inr hn)
      · exact .broken (startsBreak_of_newline? hn) hn
  | continuation hn =>
    obtain ⟨_, _, -, heq, -⟩ := continuation?_eq_some.1 hn
    exact .joined (List.cons.inj heq).1 rfl hn
  | word hn =>
    obtain ⟨_, _, heq, hc⟩ := starts_word _ _ hn
    exact .word ((List.cons.inj heq).1 ▸ hc) hn
  | gap hn =>
    obtain ⟨_, _, heq, hc⟩ := starts_gap _ _ hn
    exact .gap ((List.cons.inj heq).1 ▸ hc) rfl
  | assignment hn =>
    obtain ⟨text, hfind, -⟩ := Option.map_eq_some_iff.1 hn
    have hfront := find?_some hfind
    exact .ofSign (mem_append_left _ (mem_of_find?_eq_some hfind))
      ( isPrefixOf_iff_prefix.1 hfront)
  | spelled hmem hfront =>
    exact .ofSign (mem_append_right _ (mem_map_of_mem hmem)) hfront

theorem newline?_of_return (h : scan accepts ('\r' :: cs) = some l) :
    newline? ('\r' :: cs) = some l.length ∧ 2 ≤ l.length := by
  cases begun_of_scan h with
  | number hc | quoted hc | joined hc | word hc | gap hc | sign hc => exact absurd hc (by decide)
  | broken _ hn =>
    refine ⟨hn, ?_⟩
    obtain ⟨hlength, hpos⟩ := newline?_eq_some.1 hn
    cases hstep : lineStep .nothing ('\r' :: cs) with
    | none =>
      rw [lineEnd_of_none hstep] at hlength
      omega
    | some p =>
      obtain ⟨k, st⟩ := p
      have htwo : k = 2 := by
        simp [lineStep] at hstep
        exact hstep.2.1.symm
      rw [lineEnd_of_some hstep] at hlength
      omega

theorem continuation?_of_backslash (h : scan accepts ('\\' :: cs) = some l) :
    continuation? ('\\' :: cs) = some l.length := by
  cases begun_of_scan h with
  | number hc | quoted hc | broken hc | word hc | gap hc | sign hc => exact absurd hc (by decide)
  | joined _ _ hn => exact hn

theorem string?_of_quote (hc : isQuote c) (h : scan accepts (c :: cs) = some l) :
    string? (c :: cs) = some l.length ∨ longString? (c :: cs) = some l.length := by
  have hcases : c = '"' ∨ c = '\'' := by simpa [isQuote] using hc
  have hother : startsNumber c = false ∧ startsBreak c = false ∧ c ≠ '\\' ∧ isWordStart c = false ∧
      isGap c = false ∧ signs.any (·.toList.head? == some c) = false := by
    rcases hcases with rfl | rfl <;> decide
  cases begun_of_scan h with
  | quoted _ hn => exact hn
  | number hc | broken hc | joined hc | word hc | gap hc | sign hc => simp_all

end First

/-! ## Strings before a separator -/

section Literals

variable {accepts : Terminal → Bool} {u v letters rest : List Char} {q : Char} {l : Lexeme}

variable {c : Char}

theorem eq_of_toLower (h : c.toLower = d) : c = d ∨ c = d.toUpper := by
  unfold Char.toLower at h
  split at h
  · rename_i hc
    subst h
    have hrange : 'a'.val ≤ c.val + ('a'.val - 'A'.val) ∧
        c.val + ('a'.val - 'A'.val) ≤ 'z'.val := by
      obtain ⟨hlow, hhigh⟩ := hc
      simp [UInt32.le_iff_toNat_le] at hlow hhigh ⊢
      omega
    refine .inr (Eq.trans ?_ (dif_pos hrange).symm)
    apply Char.ext
    simp only [UInt32.add_assoc]
    exact (UInt32.add_zero c.val).symm
  · exact .inl h

/-- The letters of marks. -/
def markLetters : List Char := ['u', 'U', 'b', 'B', 'f', 'F', 'r', 'R']

theorem mem_markLetters (h : isMark.kind c ∨ isMark.raw c) :
    c ∈ markLetters := by
  simp only [isMark.kind, isMark.raw, Bool.or_eq_true, beq_iff_eq] at h
  rcases h with ((h | h) | h) | h <;> rcases eq_of_toLower h with rfl | rfl <;> decide

theorem mem_markLetters_of_isMark (h : isMark letters) :
    letters.length ≤ 2 ∧ ∀ c ∈ letters, c ∈ markLetters := by
  match letters with
  | [] => simp
  | [c] =>
    refine ⟨by simp, fun d hd => ?_⟩
    rw [mem_singleton.1 hd]
    exact mem_markLetters (Bool.or_eq_true_iff.1 h)
  | [c, d] =>
    refine ⟨by simp, fun e he => ?_⟩
    simp only [isMark, Bool.or_eq_true, Bool.and_eq_true] at h
    rw [mem_cons, mem_singleton] at he
    rcases he with rfl | rfl
    · exact mem_markLetters (h.imp And.left And.left)
    · exact mem_markLetters (h.symm.imp And.right And.right)

theorem isWord_of_isQuote (hq : isQuote q) : isWord q = false := by
  have hcases : q = '"' ∨ q = '\'' := by simpa [isQuote] using hq
  rcases hcases with rfl | rfl <;> decide

theorem signs_of_markLetter : ∀ text ∈ signs, text.toList.head?.any markLetters.contains →
    3 ≤ text.length ∧ '"' ∉ text.toList ∧ '\'' ∉ text.toList := by decide

theorem not_front_of_isMark {text : String} (htext : text ∈ signs) (hletters : isMark (c :: letters))
    (hq : isQuote q) (hfront : text.toList <+: c :: letters ++ q :: rest) : False := by
  obtain ⟨htwo, hmem⟩ := mem_markLetters_of_isMark hletters
  have hhead := head?_of_front hfront (length_pos_of_mem_signs text htext)
  obtain ⟨hthree, hdouble, hsingle⟩ := signs_of_markLetter text htext (by
    rw [hhead]
    exact contains_iff_mem.2 (hmem c (by simp)))
  have hopening : c :: letters ++ [q] <+: text.toList := by
    refine prefix_of_prefix_length_le ⟨rest, by simp⟩ hfront ?_
    rw [length_append, length_singleton, String.length_toList]
    omega
  have hquote : q ∈ text.toList := hopening.subset (by simp)
  have hcases : q = '"' ∨ q = '\'' := by simpa [isQuote] using hq
  rcases hcases with rfl | rfl
  · exact hdouble hquote
  · exact hsingle hquote

/-- Where a mark and a quote stand, there is a string or a word that is the mark. -/
theorem literal_of_scan (hletters : isMark letters) (hq : isQuote q)
    (h : scan accepts (letters ++ q :: rest) = some l) :
    string? (letters ++ q :: rest) = some l.length ∨
      longString? (letters ++ q :: rest) = some l.length ∨ l.length = letters.length := by
  cases letters with
  | nil =>
    rcases string?_of_quote hq h with h | h
    · exact .inl h
    · exact .inr (.inl h)
  | cons c letters =>
    obtain ⟨htwo, hmem⟩ := mem_markLetters_of_isMark hletters
    have hletter : ∀ c ∈ markLetters, startsNumber c = false ∧ startsBreak c = false ∧ c ≠ '\\' ∧
        isGap c = false ∧ isWord c := all_iff_forall_prop.1 (by decide)
    obtain ⟨hnumber, hbreak, hjoin, hgap, hword⟩ := hletter c (hmem c (by simp))
    cases begun_of_scan h with
    | number hc => cases hnumber.symm.trans hc
    | quoted _ hn =>
      rcases hn with hn | hn
      · exact .inl hn
      · exact .inr (.inl hn)
    | broken hc => cases hbreak.symm.trans hc
    | joined hc => exact absurd hc hjoin
    | gap hc => cases hgap.symm.trans hc
    | word hc hn =>
      have hrun : run isWord (letters ++ q :: rest) = letters.length := by
        rw [run_stop (isWord_of_isQuote hq), run, takeWhile_eq_self_iff.2]
        exact fun d hd => (hletter d (hmem d (mem_cons_of_mem c hd))).2.2.2.2
      rw [word?, show letters.append _ = letters ++ q :: rest from rfl, hrun,
        if_pos hc] at hn
      exact .inr (.inr ((Option.some.inj hn).symm.trans (Nat.add_comm _ _)))
    | sign _ htext hfront => exact (not_front_of_isMark htext hletters hq hfront).elim

/-- What stands before a place: a lexeme, and another one after it unless the first ends there. -/
def Inside (u v : List Char) (l : Lexeme) : Prop :=
  l.length = u.length ∨ ∃ accepts l', scan accepts ((u ++ v).drop l.length) = some l' ∧
    l.length + l'.length ≤ u.length

/-- A string that is opened before a place between lexemes is closed there. -/
theorem closed_of_scan (hletters : isMark letters) (hq : isQuote q)
    (hu : u = letters ++ q :: rest) (h : scan accepts (u ++ v) = some l)
    (hl : l.length ≤ u.length) (hnext : Inside u v l) :
    ∃ n ≤ u.length, string? (u ++ v) = some n ∨ longString? (u ++ v) = some n := by
  have htext : u ++ v = letters ++ q :: (rest ++ v) := by simp [hu]
  rw [htext] at h
  rcases literal_of_scan hletters hq h with hn | hn | hlength
  · exact ⟨l.length, hl, .inl (htext ▸ hn)⟩
  · exact ⟨l.length, hl, .inr (htext ▸ hn)⟩
  · -- The mark was read as a word, so the next lexeme starts with the quote.
    have hlong : u.length = letters.length + 1 + rest.length := by
      rw [hu, length_append, length_cons]
      omega
    rcases hnext with hend | ⟨accepts', l', h', hle⟩
    · omega
    rw [htext, hlength, drop_left] at h'
    rw [hlength] at hle
    rcases string?_of_quote hq h' with hn | hn
    · exact ⟨letters.length + l'.length, hle, .inl (htext ▸ string?_of_unmarked hletters hq hn)⟩
    · exact ⟨letters.length + l'.length, hle, .inr (htext ▸ longString?_of_unmarked hletters hq hn)⟩

theorem exists_rest_of_stop (hd : d ∈ separators) (hletters : isMark letters) (hq : isQuote q)
    (h : u ++ d :: w = letters ++ q :: rest) : ∃ ru, u = letters ++ q :: ru := by
  have hother : ∀ d ∈ separators, d ∉ markLetters ∧ isQuote d = false :=
    all_iff_forall_prop.1 (by decide)
  have hstop : d ∉ letters ++ [q] := by
    rw [mem_append, mem_singleton, not_or]
    refine ⟨fun hmem => (hother d hd).1 ((mem_markLetters_of_isMark hletters).2 _ hmem), ?_⟩
    rintro rfl
    rw [(hother d hd).2] at hq
    cases hq
  have hfront : letters ++ [q] <+: u ++ d :: w := ⟨rest, by simp [h]⟩
  obtain ⟨ru, hru⟩ := (prefix_stop hstop).1 hfront
  exact ⟨ru, by simp [← hru]⟩

variable {d : Char} {w : List Char} (hd : d ∈ separators)

include hd

theorem string?_insert_some {n : Nat} (h : string? (u ++ v) = some n) (hn : n ≤ u.length) :
    string? (u ++ d :: w) = some n := by
  have hquote : ∀ d ∈ separators, isQuote d = false := all_iff_forall_prop.1 (by decide)
  exact string?_insert (hquote d hd) h hn

theorem string?_insert_none (h : scan accepts (u ++ v) = some l) (hl : l.length ≤ u.length)
    (hnext : Inside u v l) (hnone : string? (u ++ v) = none) : string? (u ++ d :: w) = none := by
  rw [Option.eq_none_iff_forall_ne_some]
  intro n hn
  obtain ⟨letters, q, rest, m, hletters, hq, htext, -⟩ := string?_eq_some.1 hn
  obtain ⟨ru, hu⟩ := exists_rest_of_stop hd hletters hq htext
  obtain ⟨k, hk, hshort | hlong⟩ := closed_of_scan hletters hq hu h hl hnext
  · cases hnone.symm.trans hshort
  · cases (longString?_of_string? hn).symm.trans (longString?_insert (w := d :: w) hlong hk)

theorem longString?_insert_none (h : scan accepts (u ++ v) = some l) (hl : l.length ≤ u.length)
    (hnext : Inside u v l) (hnone : longString? (u ++ v) = none) :
    longString? (u ++ d :: w) = none := by
  rw [Option.eq_none_iff_forall_ne_some]
  intro n hn
  obtain ⟨letters, q, rest, m, hletters, hq, htext, -⟩ := longString?_eq_some.1 hn
  obtain ⟨ru, hu⟩ := exists_rest_of_stop hd hletters hq htext
  obtain ⟨k, hk, hshort | hlong⟩ := closed_of_scan hletters hq hu h hl hnext
  · cases (longString?_of_string? (string?_insert_some hd hshort hk)).symm.trans hn
  · cases hnone.symm.trans hlong

end Literals

/-! ## All lexemes before a separator -/

section Insert

variable {accepts accepts' : Terminal → Bool} {u v w : List Char} {d : Char} {l l' : Lexeme} {n : Nat}

variable {length? : List Char → Option Nat} {t : Terminal}

theorem Stable.insert_none {stops : Char → Prop} (hstable : Stable stops length?) (hd : stops d)
    (h : length? (u ++ v) = none) :
    length? (u ++ d :: w) = none := by
  rw [hstable.stop hd, hstable.eq_none_of_append h]

theorem Stable.insert_some {stops : Char → Prop} (hstable : Stable stops length?) (hd : stops d)
    (h : length? (u ++ v) = some n) (hn : n ≤ u.length) : length? (u ++ d :: w) = some n := by
  rw [hstable.stop hd, hstable.cut h hn]

theorem newline?_insert_none (h : scan accepts (u ++ v) = some l) (hl : l.length ≤ u.length)
    (hnone : newline? (u ++ v) = none) : newline? (u ++ w) = none := by
  have hzero : lineEnd .nothing (u ++ v) = 0 := by
    by_contra hne
    rw [newline?_eq_some.2 ⟨rfl, Nat.pos_of_ne_zero hne⟩] at hnone
    cases hnone
  have hpos := (scan_length h).1
  have hreturn : u.drop 0 ≠ ['\r'] := by
    intro hu
    rw [drop_zero] at hu
    subst hu
    rw [singleton_append] at h hnone
    rw [(newline?_of_return h).1] at hnone
    cases hnone
  have hsame : lineEnd .nothing (u ++ w) = 0 := lineEnd_append hzero (by omega) hreturn
  rw [Option.eq_none_iff_forall_ne_some]
  intro n hn
  obtain ⟨hlength, hpos⟩ := newline?_eq_some.1 hn
  omega

theorem newline?_insert_some (hnext : Inside u v ⟨some .newline, n⟩)
    (h : newline? (u ++ v) = some n) (hn : n < u.length) : newline? (u ++ w) = some n := by
  obtain ⟨hlength, hpos⟩ := newline?_eq_some.1 h
  have hreturn : u.drop n ≠ ['\r'] := by
    intro hdrop
    rcases hnext with hend | ⟨accepts', l', h', hle⟩
    · exact absurd hend (Nat.ne_of_lt hn)
    · -- A carriage return takes a line feed with it, which does not fit.
      dsimp only at h' hle
      rw [drop_append_of_le_length (Nat.le_of_lt hn), hdrop, singleton_append] at h'
      have htwo := (newline?_of_return h').2
      have hone := congrArg List.length hdrop
      rw [length_drop, length_singleton] at hone
      omega
  exact newline?_eq_some.2 ⟨lineEnd_append hlength hn hreturn, hpos⟩

/-- A line break that ends at the place of another one gets longer by it. -/
theorem newline?_insert_end (hv : v ≠ []) (h : newline? (u ++ v) = some u.length) :
    newline? (u ++ '\n' :: v) = some (u.length + 1) := by
  obtain ⟨hlength, hpos⟩ := newline?_eq_some.1 h
  have hmore := lineEnd_insert hv (.inr (ne_nil_of_length_pos hpos)) hlength
  exact newline?_eq_some.2 ⟨hmore, by omega⟩

/-- A lexeme as it is found with another text after a place: the same one, unless it is a line break,
which may get longer. -/
structure Becomes (u v v' : List Char) (l l' : Lexeme) : Prop where
  same : l.kind ≠ some .newline → l' = l
  line : l.kind = some .newline → newline? (u ++ v) = some l.length →
    (newline? (u ++ v')).map (Lexeme.mk (some .newline)) = some l'

theorem class_insert_some (hmem : (t, length?) ∈ classes) (hd : d ∈ separators)
    (hbecomes : Becomes u v (d :: w) ⟨some t, n⟩ l') (h : length? (u ++ v) = some n) (hn : n ≤ u.length) :
    (length? (u ++ d :: w)).map (Lexeme.mk (some t)) = some l' := by
  rcases number_of_mem_classes hmem with ⟨hne, hstable, -⟩ | ⟨rfl, rfl⟩ | ⟨rfl, rfl⟩ | ⟨rfl, rfl⟩
  · rw [hstable.insert_some hd h hn, hbecomes.same fun ht => hne (Option.some.inj ht)]
    rfl
  · rw [string?_insert_some hd h hn, hbecomes.same (by simp)]
    rfl
  · rw [longString?_insert h hn, hbecomes.same (by simp)]
    rfl
  · exact hbecomes.line rfl h

theorem class_insert_none (hmem : (t, length?) ∈ classes) (hd : d ∈ separators)
    (h : scan accepts (u ++ v) = some l) (hl : l.length ≤ u.length) (hnext : Inside u v l)
    (hnone : length? (u ++ v) = none) :
    length? (u ++ d :: w) = none := by
  rcases number_of_mem_classes hmem with ⟨-, hstable, -⟩ | ⟨rfl, rfl⟩ | ⟨rfl, rfl⟩ | ⟨rfl, rfl⟩
  · exact hstable.insert_none hd hnone
  · exact string?_insert_none hd h hl hnext hnone
  · exact longString?_insert_none hd h hl hnext hnone
  · exact newline?_insert_none h hl hnone

/-- A backslash that joins lines before a place does so whatever comes after it, unless that is a
blank. -/
theorem continuation?_insert_some (hgap : isGap d = false) (h : continuation? (u ++ v) = some n)
    (hn : n ≤ u.length) : continuation? (u ++ d :: w) = some n := by
  obtain ⟨rest, ending, hending, htext, hfront, rfl⟩ := continuation?_eq_some.1 h
  cases u with
  | nil =>
    rw [length_nil] at hn
    omega
  | cons c u =>
    rw [cons_append, List.cons.injEq] at htext
    obtain ⟨rfl, rfl⟩ := htext
    rw [length_cons] at hn
    have hrun : run isGap u = run isGap (u ++ v) := run_cut (by omega)
    have hrun' : run isGap (u ++ d :: w) = run isGap (u ++ v) := by rw [run_stop hgap, hrun]
    refine continuation?_eq_some.2 ⟨u ++ d :: w, ending, hending, rfl, ?_, by rw [hrun']⟩
    have hle : run isGap (u ++ v) ≤ u.length := by omega
    rw [hrun', drop_append_of_le_length hle]
    rw [drop_append_of_le_length hle] at hfront
    have hin : ending <+: u.drop (run isGap (u ++ v)) := by
      refine prefix_of_prefix_length_le hfront (prefix_append _ _) ?_
      rw [length_drop]
      omega
    exact hin.trans (prefix_append _ _)

theorem continuation?_insert_none (h : scan accepts (u ++ v) = some l) (hl : l.length ≤ u.length)
    (hnone : continuation? (u ++ v) = none) : continuation? (u ++ w) = none := by
  have hpos := (scan_length h).1
  cases u with
  | nil =>
    rw [length_nil] at hl
    omega
  | cons c u =>
    by_cases hc : c = '\\'
    · subst hc
      rw [cons_append] at h hnone
      rw [continuation?_of_backslash h] at hnone
      cases hnone
    · simp [continuation?, hc]

theorem notMem_of_mem_signs : ∀ text ∈ signs, ∀ d ∈ separators, d ∉ text.toList.tail := by
  have hall : ∀ text ∈ signs, separators.all (· ∉ text.toList.tail) := by decide
  exact fun text htext => all_iff_forall_prop.1 (hall text htext)

theorem isPrefixOf_of_insert (hd : d ∈ separators) (hu : u ≠ []) {text : String}
    (hmem : text ∈ signs) (h : text.toList.isPrefixOf (u ++ d :: w)) :
    text.toList.isPrefixOf (u ++ v) := by
  rw [ isPrefixOf_iff_prefix] at h ⊢
  have hstop := notMem_of_mem_signs text hmem d hd
  cases u with
  | nil => exact absurd rfl hu
  | cons c u =>
    cases htext : text.toList with
    | nil => exact nil_prefix
    | cons c' rest =>
      rw [htext] at h hstop
      rw [cons_append, cons_prefix_cons] at h ⊢
      exact ⟨h.1, ((prefix_stop hstop).1 h.2).trans (prefix_append u v)⟩

theorem isPrefixOf_insert {text : String} (h : text.toList.isPrefixOf (u ++ v))
    (hn : text.length ≤ u.length) (w : List Char) : text.toList.isPrefixOf (u ++ w) := by
  rw [← String.length_toList] at hn
  rw [isPrefixOf_append _ hn] at h ⊢
  exact h

theorem spelled_ne_newline : ∀ e ∈ Terminal.spelled, e.1 ≠ .newline := by decide

theorem wordKind_ne_newline (accepts : Terminal → Bool) (word : String) :
    wordKind accepts word ≠ .newline := by
  unfold wordKind Terminal.ofWord?
  cases hfind : Terminal.spelled.find? fun e => e.2 == word && accepts e.1 with
  | none => decide
  | some e => exact spelled_ne_newline e (mem_of_find?_eq_some hfind)

/-! ## Readers that accept less -/

/-- A reader that accepts the kind of a lexeme, and no more than another one but for what closes a
group. -/
structure Narrows (accepts accepts' : Terminal → Bool) (l : Lexeme) : Prop where
  le : ∀ t, accepts' t = true → accepts t = true ∨ t = .rightParen ∨ t = .rightBracket
  kind : ∀ t, l.kind = some t → t ≠ .newline → accepts t = true → accepts' t = true
  name : accepts .name = true → accepts' .name = true

namespace Narrows

theorem refl (accepts : Terminal → Bool) (l : Lexeme) : Narrows accepts accepts l :=
  ⟨fun _ => .inl, fun _ _ _ => id, id⟩

variable (h : Narrows accepts accepts' l)

include h

theorem le_of_ne {t : Terminal} (ht : t ≠ .rightParen ∧ t ≠ .rightBracket)
    (haccepts : accepts' t) : accepts t :=
  (h.le t haccepts).resolve_right (not_or.2 ht)

theorem wordKind_eq {cs : List Char} (hn : word? cs = some n)
    (hkind : l.kind = some (wordKind accepts (String.ofList (cs.take n)))) :
    wordKind accepts' (String.ofList (cs.take n)) = wordKind accepts (String.ofList (cs.take n)) := by
  have hle : ∀ e ∈ Terminal.spelled, (e.2 == String.ofList (cs.take n) && accepts' e.1) →
      (e.2 == String.ofList (cs.take n) && accepts e.1) := by
    intro e he hword
    rw [Bool.and_eq_true, beq_iff_eq] at hword ⊢
    refine ⟨hword.1, h.le_of_ne ?_ hword.2⟩
    -- What closes a group is no word.
    have hclosers : ∀ e ∈ Terminal.spelled, e.2.toList.head?.any isWordStart →
        e.1 ≠ .rightParen ∧ e.1 ≠ .rightBracket := by decide
    refine hclosers e he ?_
    rw [hword.1, String.toList_ofList]
    cases cs with
    | nil => cases hn
    | cons c cs =>
      rw [word?] at hn
      split at hn
      · cases hn
        rwa [Nat.add_comm]
      · cases hn
  unfold wordKind Terminal.ofWord? at hkind ⊢
  cases hfind : Terminal.spelled.find? fun e => e.2 == String.ofList (cs.take n) && accepts e.1 with
  | none =>
    rw [find?_eq_none] at hfind
    rw [find?_eq_none.2 fun e he hword => hfind e he (hle e he hword)]
  | some e =>
    rw [hfind] at hkind
    have hword := find?_some hfind
    rw [Bool.and_eq_true] at hword
    have hne := spelled_ne_newline e (mem_of_find?_eq_some hfind)
    rw [find?_of_imp hfind (Bool.and_eq_true_iff.2 ⟨hword.1, h.kind e.1 hkind hne hword.2⟩) hle]

end Narrows

/-- What is found for another reader or text: nothing where nothing was found, and `l'` where `l`
was. -/
structure Kept (l l' : Lexeme) (found found' : Option Lexeme) : Prop where
  none : found = none → found' = none
  some : found = some l → found' = some l'

namespace Kept

variable {found found' next next' : Option Lexeme}

theorem orElse (h : Kept l l' found found') (h' : next = .some l → next' = .some l')
    (hsome : (found <|> next) = .some l) : (found' <|> next') = .some l' := by
  rcases (Option.orElse_eq_some _ _ _).1 hsome with hfound | ⟨hnone, hnext⟩
  · exact (Option.orElse_eq_some _ _ _).2 (.inl (h.some hfound))
  · exact (Option.orElse_eq_some _ _ _).2 (.inr ⟨h.none hnone, h' hnext⟩)

theorem ite {b b' : Bool} (hle : b' → b) (hb : found = .some l → b → b')
    (h : Kept l l' found found') :
    Kept l l' (if b then found else .none) (if b' then found' else .none) where
  none hnone := by
    cases b' with
    | false => rfl
    | true =>
      rw [if_pos (hle rfl)] at hnone
      exact h.none hnone
  some hsome := by
    cases b with
    | false => cases hsome
    | true =>
      rw [if_pos (hb hsome rfl)]
      exact h.some hsome

theorem findSome? {α : Type} {entries : List α} {way way' : α → Option Lexeme}
    (h : ∀ a ∈ entries, Kept l l' (way a) (way' a)) :
    Kept l l' (entries.findSome? way) (entries.findSome? way') := by
  induction entries with
  | nil => exact ⟨fun _ => rfl, nofun⟩
  | cons a entries ih =>
    have hrest := ih fun a hmem => h a (.tail _ hmem)
    have ha := h a (.head _)
    rw [findSome?_cons, findSome?_cons]
    cases hway : way a with
    | none => rwa [ha.none hway]
    | some found =>
      refine ⟨nofun, fun hfound => ?_⟩
      rw [ha.some (hway.trans hfound)]

end Kept

variable (hscan : scan accepts (u ++ v) = some l) (hl : l.length ≤ u.length) (hd : d ∈ separators)
  (hgap : isGap d = false) (hbecomes : Becomes u v (d :: w) l l')
  (hnarrows : Narrows accepts accepts' l)

include hscan hl hd hbecomes hnarrows in
theorem kept_class (hnext : Inside u v l) (hmem : (t, length?) ∈ classes) : Kept l l'
      (if t == .newline || accepts t then (length? (u ++ v)).map (⟨some t, ·⟩) else none)
      (if t == .newline || accepts' t then (length? (u ++ d :: w)).map (⟨some t, ·⟩) else none) := by
  refine Kept.ite (fun h => ?_) (fun hfound h => ?_) ⟨fun hnone => ?_, fun hsome => ?_⟩
  · have hne : ∀ t ∈ classes.map (·.1), t ≠ .rightParen ∧ t ≠ .rightBracket := by decide
    rw [Bool.or_eq_true] at h ⊢
    exact h.imp_right (hnarrows.le_of_ne (hne t (mem_map_of_mem hmem)))
  · obtain ⟨n, -, rfl⟩ := Option.map_eq_some_iff.1 hfound
    by_cases ht : t = .newline
    · simp [ht]
    · rw [Bool.or_eq_true] at h ⊢
      exact h.imp_right (hnarrows.kind t rfl ht)
  · rw [Option.map_eq_none_iff] at hnone ⊢
    exact class_insert_none hmem hd hscan hl hnext hnone
  · obtain ⟨n, hn, rfl⟩ := Option.map_eq_some_iff.1 hsome
    exact class_insert_some hmem hd hbecomes hn hl

include hscan hl hgap hbecomes in
theorem kept_continuation : Kept l l' ((continuation? (u ++ v)).map (⟨none, ·⟩))
    ((continuation? (u ++ d :: w)).map (⟨none, ·⟩)) where
  none hnone := by
    rw [Option.map_eq_none_iff] at hnone ⊢
    exact continuation?_insert_none hscan hl hnone
  some hsome := by
    obtain ⟨n, hn, rfl⟩ := Option.map_eq_some_iff.1 hsome
    rw [continuation?_insert_some hgap hn hl, hbecomes.same (by simp)]
    rfl

include hl hd hbecomes hnarrows in
theorem kept_word : Kept l l'
    (if accepts .name then (word? (u ++ v)).map fun n =>
      ⟨some (wordKind accepts (String.ofList ((u ++ v).take n))), n⟩ else none)
    (if accepts' .name then (word? (u ++ d :: w)).map fun n =>
      ⟨some (wordKind accepts' (String.ofList ((u ++ d :: w).take n))), n⟩ else none) := by
  refine Kept.ite (hnarrows.le_of_ne (by decide)) (fun _ => hnarrows.name)
    ⟨fun hnone => ?_, fun hsome => ?_⟩
  · rw [Option.map_eq_none_iff] at hnone ⊢
    exact stable_word.insert_none hd hnone
  · obtain ⟨n, hn, rfl⟩ := Option.map_eq_some_iff.1 hsome
    have hle : n ≤ u.length := hl
    have htake : (u ++ v).take n = (u ++ d :: w).take n := by
      rw [take_append_of_le_length hle, take_append_of_le_length hle]
    rw [stable_word.insert_some hd hn hl, Option.map_some, ← htake, hnarrows.wordKind_eq hn rfl,
      hbecomes.same fun hkind => wordKind_ne_newline _ _ (Option.some.inj hkind)]

include hl hgap hbecomes in
theorem kept_gap : Kept l l' ((gap? (u ++ v)).map (⟨none, ·⟩))
    ((gap? (u ++ d :: w)).map (⟨none, ·⟩)) where
  none hnone := by
    rw [Option.map_eq_none_iff] at hnone ⊢
    exact stable_gap.insert_none hgap hnone
  some hsome := by
    obtain ⟨n, hn, rfl⟩ := Option.map_eq_some_iff.1 hsome
    rw [stable_gap.insert_some hgap hn hl, hbecomes.same (by simp)]
    rfl

include hl hd hbecomes hnarrows in
theorem kept_assignment (hu : u ≠ []) : Kept l l'
    (if accepts .augAssign then (oneOf? assignments (u ++ v)).map (⟨some .augAssign, ·⟩) else none)
    (if accepts' .augAssign then (oneOf? assignments (u ++ d :: w)).map (⟨some .augAssign, ·⟩)
      else none) := by
  refine Kept.ite (hnarrows.le_of_ne (by decide)) (fun hfound h => ?_)
    ⟨fun hnone => ?_, fun hsome => ?_⟩
  · obtain ⟨n, -, rfl⟩ := Option.map_eq_some_iff.1 hfound
    exact hnarrows.kind _ rfl (by decide) h
  · simp only [oneOf?, Option.map_eq_none_iff, find?_eq_none] at hnone ⊢
    intro text hmem hfront
    exact hnone text hmem (isPrefixOf_of_insert hd hu (mem_append_left _ hmem) hfront)
  · obtain ⟨n, hn, rfl⟩ := Option.map_eq_some_iff.1 hsome
    obtain ⟨text, hfind, rfl⟩ := Option.map_eq_some_iff.1 hn
    have hfront := find?_some hfind
    have hfind' := find?_of_imp hfind (isPrefixOf_insert hfront hl (d :: w)) fun text hmem =>
      isPrefixOf_of_insert hd hu (mem_append_left _ hmem)
    rw [oneOf?, hfind', hbecomes.same (by simp)]
    rfl

include hl hd hbecomes hnarrows in
/-- Separators make no difference to a sign or keyword that is found. -/
theorem spelled_of_becomes (hu : u ≠ [])
    (h : (Terminal.spelled.find? fun (t, text) => accepts t && text.toList.isPrefixOf (u ++ v)).map
      (fun (t, text) => ⟨some t, text.length⟩) = some l) :
    (Terminal.spelled.find? fun (t, text) => accepts' t && text.toList.isPrefixOf (u ++ d :: w)).map
      (fun (t, text) => ⟨some t, text.length⟩) = some l' := by
  obtain ⟨⟨t, text⟩, hfind, rfl⟩ := Option.map_eq_some_iff.1 h
  have hmem := mem_of_find?_eq_some hfind
  have hfound := find?_some hfind
  obtain ⟨haccepts, hfront⟩ := Bool.and_eq_true_iff.1 hfound
  have hle : ∀ e ∈ Terminal.spelled, (accepts' e.1 && e.2.toList.isPrefixOf (u ++ d :: w)) →
      (accepts e.1 && e.2.toList.isPrefixOf (u ++ v)) := by
    intro e he h
    obtain ⟨haccepts', hfront'⟩ := Bool.and_eq_true_iff.1 h
    have hfront' : e.2.toList.isPrefixOf (u ++ v) :=
      isPrefixOf_of_insert hd hu (mem_append_right _ (mem_map_of_mem he)) hfront'
    refine Bool.and_eq_true_iff.2 ⟨?_, hfront'⟩
    rcases hnarrows.le e.1 haccepts' with haccepts' | hcloser
    · exact haccepts'
    · -- No other sign starts as what closes a group, so that is what was found.
      have hclosers : ∀ e ∈ Terminal.spelled, (e.1 = .rightParen ↔ e.2.toList.head? = some ')') ∧
          (e.1 = .rightBracket ↔ e.2.toList.head? = some ']') := by decide
      have hsame : text.toList.head? = e.2.toList.head? := by
        rw [ isPrefixOf_iff_prefix] at hfront hfront'
        have hsigns {e : Terminal × String} (he : e ∈ Terminal.spelled) :=
          length_pos_of_mem_signs e.2 (mem_append_right _ (mem_map_of_mem he))
        cases u with
        | nil => exact absurd rfl hu
        | cons c u =>
          exact (head?_of_front hfront (hsigns hmem)).trans (head?_of_front hfront' (hsigns he)).symm
      have hkind : t = e.1 := by
        rcases hcloser with hparen | hbracket
        · rw [hparen, (hclosers _ hmem).1, hsame, ← (hclosers e he).1, hparen]
        · rw [hbracket, (hclosers _ hmem).2, hsame, ← (hclosers e he).2, hbracket]
      rwa [← hkind]
  have hne := spelled_ne_newline _ hmem
  rw [find?_of_imp hfind (Bool.and_eq_true_iff.2
      ⟨hnarrows.kind t rfl hne haccepts, isPrefixOf_insert hfront hl _⟩) hle,
    hbecomes.same fun h => hne (Option.some.inj h)]
  rfl

include hscan hl hd hgap hbecomes hnarrows in
/-- A lexeme before a separator between lexemes, for a reader that accepts less. -/
theorem scan_of_becomes (hnext : Inside u v l) : scan accepts' (u ++ d :: w) = some l' := by
  have hu : u ≠ [] := ne_nil_of_length_pos (Nat.lt_of_lt_of_le (scan_length hscan).1 hl)
  have hclass : Kept l l' _ _ :=
    .findSome? fun _ hmem => kept_class hscan hl hd hbecomes hnarrows hnext hmem
  refine hclass.orElse ?_ hscan
  refine (kept_continuation hscan hl hgap hbecomes).orElse ?_
  refine (kept_word hl hd hbecomes hnarrows).orElse ?_
  refine (kept_gap hl hgap hbecomes).orElse ?_
  exact (kept_assignment hl hd hbecomes hnarrows hu).orElse
    (spelled_of_becomes hl hd hbecomes hnarrows hu)

include hscan hl hd hgap hnarrows in
/-- A lexeme before a place is found as it was when a separator comes there, unless it is a line break
that ends there. -/
theorem scan_before (hnext : Inside u v l) (hend : l.kind = some .newline → l.length < u.length) :
    scan accepts' (u ++ d :: w) = some l := by
  refine scan_of_becomes hscan hl hd hgap ⟨fun _ => rfl, fun hkind hnewline => ?_⟩ hnarrows hnext
  obtain ⟨kind, n⟩ := l
  obtain rfl : kind = some .newline := hkind
  rw [newline?_insert_some hnext hnewline (hend rfl)]
  rfl

/-- What a lexeme becomes by a line break at a place after its start: a line break that ends there
gets longer. -/
def Lexeme.broken (l : Lexeme) (place : Nat) : Lexeme :=
  if l.kind = some .newline ∧ l.length = place then ⟨l.kind, place + 1⟩ else l

theorem Lexeme.broken_of_ne {place : Nat} (h : l.kind ≠ some .newline) : l.broken place = l :=
  if_neg fun hl => h hl.1

include hscan hl in
/-- A lexeme before a line break between lexemes is found as it was, except that a line break that
ends there gets longer. -/
theorem scan_insert (hv : v ≠ []) (hnext : Inside u v l) :
    scan accepts (u ++ '\n' :: v) = some (l.broken u.length) := by
  refine scan_of_becomes hscan hl (by decide) (by decide) ⟨Lexeme.broken_of_ne, fun hkind hline => ?_⟩
    (.refl _ _) hnext
  obtain ⟨kind, n⟩ := l
  obtain rfl : kind = some .newline := hkind
  by_cases hend : n = u.length
  · subst hend
    rw [newline?_insert_end hv hline, Lexeme.broken, if_pos ⟨rfl, rfl⟩]
    rfl
  · have hlt : n < u.length := Nat.lt_of_le_of_ne hl hend
    rw [newline?_insert_some hnext hline hlt, Lexeme.broken, if_neg fun hl => hend hl.2]
    rfl

end Insert

/-! ## The line break itself -/

section Break

variable {accepts : Terminal → Bool} {cs : List Char} {n : Nat}

/-- Where one class of lexemes is found and none before it, this is what is found. -/
theorem scan_of_class {k : Terminal} {length? : List Char → Option Nat}
    (front : List (Terminal × (List Char → Option Nat)))
    {back : List (Terminal × (List Char → Option Nat))}
    (hclasses : classes = front ++ (k, length?) :: back) (hfront : ∀ e ∈ front, e.2 cs = none)
    (h : length? cs = some n) (haccepts : k == .newline || accepts k) :
    scan accepts cs = some ⟨some k, n⟩ := by
  unfold scan
  rw [hclasses, findSome?_append, findSome?_eq_none_iff.2, findSome?_cons]
  · simp only [haccepts, h]
    rfl
  · intro e he
    dsimp only
    rw [hfront e he]
    split <;> rfl

/-- A line break is found wherever there is one. -/
theorem scan_of_newline? (h : newline? cs = some n) :
    scan accepts cs = some ⟨some .newline, n⟩ := by
  cases cs with
  | nil => cases h
  | cons c cs =>
    have hfirst : startsNumber c = false ∧ startsString c = false := by
      have hc := startsBreak_of_newline? h
      simp only [startsBreak, Bool.or_eq_true, beq_iff_eq] at hc
      rcases hc with (rfl | rfl) | rfl <;> decide
    obtain ⟨hshort, hlong⟩ := strings_of_first hfirst.2 cs
    have hkinds : .newline ∉ (classes.take 7).map Prod.fst := by decide
    refine scan_of_class (classes.take 7) rfl (fun e he => ?_) h rfl
    refine Option.eq_none_iff_forall_ne_some.2 fun m hm => ?_
    rcases class_of_first (mem_of_mem_take he) hfirst.1 hm with ⟨-, hm⟩ | ⟨-, hm⟩ | ⟨ht, -⟩
    · cases hshort.symm.trans hm
    · cases hlong.symm.trans hm
    · exact hkinds (ht ▸ mem_map_of_mem he)

theorem scan_break (accepts : Terminal → Bool) (v : List Char) :
    scan accepts ('\n' :: v) = some ⟨some .newline, 1 + lineEnd .blanks v⟩ :=
  scan_of_newline? (newline?_eq_some.2 ⟨by rw [lineEnd], by omega⟩)

theorem newline?_of_scan (h : scan accepts cs = some ⟨some .newline, n⟩) : newline? cs = some n := by
  generalize hl : (⟨some .newline, n⟩ : Lexeme) = l at h
  cases found_of_scan h with
  | ofClass hmem hn =>
    cases hl
    rcases number_of_mem_classes hmem with ⟨hne, -⟩ | ⟨ht, -⟩ | ⟨ht, -⟩ | ⟨-, rfl⟩
    · exact absurd rfl hne
    · cases ht
    · cases ht
    · exact hn
  | continuation => cases hl
  | word =>
    exact absurd (Option.some.inj (Lexeme.mk.inj hl).1).symm (wordKind_ne_newline accepts _)
  | gap => cases hl
  | assignment => cases hl
  | spelled hmem =>
    cases hl
    exact absurd rfl (spelled_ne_newline _ hmem)

/-- A line break before another one becomes one with it. -/
theorem lineEnd_of_newline (h : scan accepts cs = some ⟨some .newline, n⟩) :
    lineEnd .blanks cs = n := by
  have hn := newline?_of_scan h
  obtain ⟨hend, hpos⟩ := newline?_eq_some.1 hn
  cases hstep : lineStep .nothing cs with
  | none =>
    rw [lineEnd_of_none hstep] at hend
    omega
  | some step =>
    obtain ⟨k, st⟩ := step
    -- The first step does not depend on what went before.
    have hstep' : lineStep .blanks cs = some (k, st) := by
      cases cs with
      | nil => cases hstep
      | cons c cs =>
        simp only [lineStep] at hstep ⊢
        grind
    rw [lineEnd_of_some hstep']
    rw [lineEnd_of_some hstep] at hend
    exact hend

/-- What starts with a blank is passed over. -/
theorem kind_of_blank {c : Char} {l : Lexeme} (hc : c = ' ' ∨ c = '\t')
    (h : scan accepts (c :: cs) = some l) : l.kind = none := by
  have hother : startsNumber c = false ∧ startsString c = false ∧ startsBreak c = false ∧
      isWordStart c = false ∧ signs.any (·.toList.head? == some c) = false := by
    rcases hc with rfl | rfl <;> decide
  cases begun_of_scan h with
  | joined _ hkind => exact hkind
  | gap _ hkind => exact hkind
  | number hc | quoted hc | broken hc | word hc | sign hc => simp_all

/-- A line break before any other token ends there. -/
theorem lineEnd_of_ne_newline {t : Terminal} (h : scan accepts cs = some ⟨some t, n⟩)
    (ht : t ≠ .newline) : lineEnd .blanks cs = 0 := by
  have hnone : newline? cs = none := by
    rw [Option.eq_none_iff_forall_ne_some]
    intro m hm
    rw [scan_of_newline? hm] at h
    cases h
    exact ht rfl
  cases cs with
  | nil => simp [lineEnd]
  | cons c cs =>
    have hblank : ¬ (c = ' ' ∨ c = '\t') := fun hc => by cases kind_of_blank hc h
    refine lineEnd_of_none ?_
    cases hstep : lineStep .nothing (c :: cs) with
    | some step =>
      have hend := lineEnd_of_some hstep
      have hpos := (lineStep_le hstep).1
      simp only [newline?, hend] at hnone
      split at hnone
      · omega
      · cases hnone
    | none =>
      simp only [lineStep] at hstep ⊢
      grind

end Break

end QueryScribe.Lexer
