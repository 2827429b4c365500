import QueryScribe.Proofs.Lexeme.Basic

/-!
# Quoted text

A string is a mark of at most two letters, a quote, and what comes up to the closing quotes
(`string?_eq_some`, `longString?_eq_some`). A string that has ended is not touched by what comes
after it, so what is put there changes neither kind (`string?_insert`, `longString?_insert`).
-/

namespace QueryScribe.Lexer

open List

open Text

variable {u v w : List Char} {c q : Char} {n : Nat} {cs : List Char} {letters rest : List Char}

theorem closeShort_plain (hc : c ≠ '\\') (cs : List Char) : closeShort q (c :: cs) =
    if c = '\n' then none else if c == q then some 1 else (closeShort q cs).map (· + 1) := by
  rw [closeShort.eq_def]
  split <;> simp_all

theorem closeShort_escape (cs : List Char) : closeShort q ('\\' :: c :: cs) =
    if c = '\n' then none else (closeShort q cs).map (· + 2) := by
  by_cases hc : c = '\n'
  · rw [if_pos hc, hc, closeShort]
  · rw [if_neg hc, closeShort]
    exact hc

theorem closeShort_pos (h : closeShort q cs = some n) : 0 < n := by
  rw [closeShort.eq_def] at h
  split at h
  · cases h
  · cases h
  · cases h
  · obtain ⟨m, -, rfl⟩ := Option.map_eq_some_iff.1 h
    omega
  · split at h
    · cases h
      omega
    · obtain ⟨m, -, rfl⟩ := Option.map_eq_some_iff.1 h
      omega

/-- The end of a short string does not depend on what comes after it. -/
theorem closeShort_append (hq : q ≠ '\\') : ∀ {u : List Char} {n : Nat},
    closeShort q (u ++ v) = some n → n ≤ u.length → closeShort q (u ++ w) = some n
  | [], n, h, hn => by
    have hpos := closeShort_pos h
    rw [length_nil] at hn
    omega
  | c :: u, n, h, hn => by
    by_cases hc : c = '\\'
    · subst hc
      cases u with
      | nil =>
        -- A backslash that ends the front part escapes what comes after it.
        cases v with
        | nil => simp [closeShort, hq.symm] at h
        | cons d v =>
          rw [singleton_append, closeShort_escape] at h
          split at h
          · cases h
          · obtain ⟨m, -, rfl⟩ := Option.map_eq_some_iff.1 h
            rw [length_singleton] at hn
            omega
      | cons d u =>
        rw [cons_append, cons_append, closeShort_escape] at h ⊢
        split at h
        · cases h
        · rename_i hd
          obtain ⟨m, hm, rfl⟩ := Option.map_eq_some_iff.1 h
          rw [length_cons, length_cons] at hn
          rw [if_neg hd, closeShort_append hq hm (by omega)]
          rfl
    · rw [cons_append, closeShort_plain hc] at h ⊢
      split at h
      · cases h
      · rename_i hbreak
        rw [if_neg hbreak]
        split at h
        · rename_i hquote
          rw [if_pos hquote, h]
        · rename_i hquote
          obtain ⟨m, hm, rfl⟩ := Option.map_eq_some_iff.1 h
          rw [length_cons] at hn
          rw [if_neg hquote, closeShort_append hq hm (by omega)]
          rfl

theorem closeLong_plain (hc : c ≠ '\\') (cs : List Char) : closeLong q (c :: cs) =
    if [q, q, q].isPrefixOf (c :: cs) then some 3 else (closeLong q cs).map (· + 1) := by
  rw [closeLong.eq_def]
  split <;> simp_all

theorem closeLong_ge (h : closeLong q cs = some n) : 3 ≤ n := by
  fun_induction closeLong q cs generalizing n with
  | case1 => cases h
  | case2 c cs ih =>
    obtain ⟨m, hm, rfl⟩ := Option.map_eq_some_iff.1 h
    have hge := ih hm
    omega
  | case3 =>
    cases h
    omega
  | case4 c cs _ _ ih =>
    obtain ⟨m, hm, rfl⟩ := Option.map_eq_some_iff.1 h
    have hge := ih hm
    omega

theorem isPrefixOf_append (text : List Char) (h : text.length ≤ u.length) (v : List Char) :
    text.isPrefixOf (u ++ v) = text.isPrefixOf u := by
  rw [Bool.eq_iff_iff, isPrefixOf_iff_prefix, isPrefixOf_iff_prefix]
  exact ⟨fun hfront => prefix_of_prefix_length_le hfront (prefix_append u v) h,
    fun hfront => hfront.trans (prefix_append u v)⟩

/-- The end of a long string does not depend on what comes after it. -/
theorem closeLong_append : ∀ {u : List Char} {n : Nat},
    closeLong q (u ++ v) = some n → n ≤ u.length → closeLong q (u ++ w) = some n
  | [], n, h, hn => by
    have hge := closeLong_ge h
    rw [length_nil] at hn
    omega
  | [c], n, h, hn => by
    have hge := closeLong_ge h
    rw [length_singleton] at hn
    omega
  | c :: d :: u, n, h, hn => by
    have hge := closeLong_ge h
    by_cases hc : c = '\\'
    · subst hc
      simp only [cons_append, closeLong] at h ⊢
      obtain ⟨m, hm, rfl⟩ := Option.map_eq_some_iff.1 h
      rw [length_cons, length_cons] at hn
      rw [closeLong_append hm (by omega)]
      rfl
    · have hfront (v : List Char) := isPrefixOf_append [q, q, q] (Nat.le_trans hge hn) v
      simp only [cons_append] at h hfront ⊢
      rw [closeLong_plain hc, hfront] at h ⊢
      split at h
      · rename_i hquotes
        rw [if_pos hquotes, h]
      · rename_i hquotes
        obtain ⟨m, hm, rfl⟩ := Option.map_eq_some_iff.1 h
        rw [length_cons] at hn
        have hrest := closeLong_append (u := d :: u) hm (by omega)
        rw [cons_append] at hrest
        rw [if_neg hquotes, hrest]
        rfl

/-- Letters that say how a string is to be read. -/
def isMark : List Char → Bool
  | [] => true
  | [c] => kind c || raw c
  | [c, d] => (kind c && raw d) || (raw c && kind d)
  | _ => false
where
  kind (d : Char) : Bool := d.toLower == 'u' || d.toLower == 'b' || d.toLower == 'f'
  raw (d : Char) : Bool := d.toLower == 'r'

theorem isMark_nil : isMark [] := rfl

theorem isQuote_of_letter (h : isMark.kind c ∨ isMark.raw c) : isQuote c = false := by
  have hquotes : ∀ q ∈ ['"', '\''], ¬ (isMark.kind q ∨ isMark.raw q) :=
    all_iff_forall_prop.1 (by decide)
  rw [Bool.eq_false_iff]
  intro hc
  refine hquotes c ?_ h
  simpa [isQuote] using hc

/-- A string starts with a mark and a quote. -/
theorem stringMark_eq_some : stringMark cs = some n ↔
    ∃ letters q rest, isMark letters ∧ isQuote q ∧ cs = letters ++ q :: rest ∧
      n = letters.length := by
  constructor
  · intro h
    rw [stringMark.eq_def] at h
    split at h
    · cases h
    · rename_i c cs
      dsimp only at h
      split at h
      · rename_i hc
        cases h
        exact ⟨[], c, cs, rfl, hc, rfl, rfl⟩
      · split at h
        · cases h
        · rename_i d ds
          split at h
          · rename_i hd
            split at h
            · rename_i hletter
              cases h
              exact ⟨[c], d, ds, hletter, hd, rfl, rfl⟩
            · cases h
          · split at h
            · cases h
            · rename_i e es
              split at h
              · rename_i he
                cases h
                rw [Bool.and_eq_true] at he
                exact ⟨[c, d], e, es, he.2, he.1, rfl, rfl⟩
              · cases h
  · rintro ⟨letters, q, rest, hmark, hq, rfl, rfl⟩
    match letters with
    | [] => simp [stringMark, hq]
    | [c] =>
      have hc := isQuote_of_letter (Bool.or_eq_true_iff.1 hmark)
      simp only [isMark, isMark.kind, isMark.raw] at hmark
      simp only [cons_append, nil_append, stringMark, hc, hq, hmark]
      rfl
    | [c, d] =>
      have hc : isQuote c = false := isQuote_of_letter (by simp [isMark] at hmark; grind)
      have hd : isQuote d = false := isQuote_of_letter (by simp [isMark] at hmark; grind)
      simp only [isMark, isMark.kind, isMark.raw] at hmark
      simp only [cons_append, nil_append, stringMark, hc, hd, hq, hmark]
      rfl

theorem string?_mark (hletters : isMark letters) (hq : isQuote q) (rest : List Char) :
    string? (letters ++ q :: rest) =
      if [q, q].isPrefixOf rest then none
      else (closeShort q rest).map (· + (letters.length + 1)) := by
  have hmark := stringMark_eq_some.2 ⟨letters, q, rest, hletters, hq, rfl, rfl⟩
  rw [string?, hmark, Option.bind_some, drop_left]

theorem longString?_mark (hletters : isMark letters) (hq : isQuote q) (rest : List Char) :
    longString? (letters ++ q :: rest) =
      if [q, q].isPrefixOf rest then (closeLong q (rest.drop 2)).map (· + (letters.length + 3))
      else none := by
  have hmark := stringMark_eq_some.2 ⟨letters, q, rest, hletters, hq, rfl, rfl⟩
  rw [longString?, hmark, Option.bind_some, drop_left]

theorem string?_eq_some : string? cs = some n ↔
    ∃ letters q rest m, isMark letters ∧ isQuote q ∧ cs = letters ++ q :: rest ∧
      [q, q].isPrefixOf rest = false ∧ closeShort q rest = some m ∧
      n = m + (letters.length + 1) := by
  constructor
  · intro h
    obtain ⟨mark, hmark, -⟩ := Option.bind_eq_some_iff.1 h
    obtain ⟨letters, q, rest, hletters, hq, rfl, rfl⟩ := stringMark_eq_some.1 hmark
    rw [string?_mark hletters hq] at h
    split at h
    · cases h
    · rename_i hshort
      obtain ⟨m, hm, rfl⟩ := Option.map_eq_some_iff.1 h
      exact ⟨letters, q, rest, m, hletters, hq, rfl, Bool.not_eq_true _ ▸ hshort, hm, rfl⟩
  · rintro ⟨letters, q, rest, m, hletters, hq, rfl, hshort, hm, rfl⟩
    rw [string?_mark hletters hq, hshort, hm]
    rfl

theorem longString?_eq_some : longString? cs = some n ↔
    ∃ letters q rest m, isMark letters ∧ isQuote q ∧ cs = letters ++ q :: rest ∧
      [q, q].isPrefixOf rest ∧ closeLong q (rest.drop 2) = some m ∧
      n = m + (letters.length + 3) := by
  constructor
  · intro h
    obtain ⟨mark, hmark, -⟩ := Option.bind_eq_some_iff.1 h
    obtain ⟨letters, q, rest, hletters, hq, rfl, rfl⟩ := stringMark_eq_some.1 hmark
    rw [longString?_mark hletters hq] at h
    split at h
    · rename_i hlong
      obtain ⟨m, hm, rfl⟩ := Option.map_eq_some_iff.1 h
      exact ⟨letters, q, rest, m, hletters, hq, rfl, hlong, hm, rfl⟩
    · cases h
  · rintro ⟨letters, q, rest, m, hletters, hq, rfl, hlong, hm, rfl⟩
    rw [longString?_mark hletters hq, hlong, hm]
    rfl

theorem longString?_of_string? (h : string? cs = some n) : longString? cs = none := by
  obtain ⟨letters, q, rest, m, hletters, hq, rfl, hshort, -, -⟩ := string?_eq_some.1 h
  rw [longString?_mark hletters hq, hshort]
  rfl

theorem string?_of_unmarked (hletters : isMark letters)
    (hq : isQuote q) (h : string? (q :: rest) = some n) :
    string? (letters ++ q :: rest) = some (letters.length + n) := by
  have hplain := string?_mark isMark_nil hq rest
  rw [nil_append, h] at hplain
  rw [string?_mark hletters hq]
  split at hplain
  · cases hplain
  · rename_i hshort
    obtain ⟨m, hm, rfl⟩ := Option.map_eq_some_iff.1 hplain.symm
    rw [if_neg hshort, hm, Option.map_some, length_nil]
    congr 1
    omega

theorem longString?_of_unmarked (hletters : isMark letters)
    (hq : isQuote q) (h : longString? (q :: rest) = some n) :
    longString? (letters ++ q :: rest) = some (letters.length + n) := by
  have hplain := longString?_mark isMark_nil hq rest
  rw [nil_append, h] at hplain
  rw [longString?_mark hletters hq]
  split at hplain
  · rename_i hlong
    obtain ⟨m, hm, rfl⟩ := Option.map_eq_some_iff.1 hplain.symm
    rw [if_pos hlong, hm, Option.map_some, length_nil]
    congr 1
    omega
  · cases hplain

theorem ne_of_isQuote (hq : isQuote q) : q ≠ '\\' ∧ q ≠ '\n' := by
  constructor <;> (rintro rfl; revert hq; decide)

theorem exists_rest_of_le (h : u ++ v = letters ++ q :: rest)
    (hle : letters.length < u.length) : ∃ ru, u = letters ++ q :: ru ∧ rest = ru ++ v := by
  rcases append_eq_append_iff.1 h with ⟨as, rfl, -⟩ | ⟨bs, rfl, hbs⟩
  · rw [length_append] at hle
    omega
  · cases bs with
    | nil => simp at hle
    | cons b bs =>
      rw [cons_append, List.cons.injEq] at hbs
      exact ⟨bs, by rw [hbs.1], hbs.2⟩

/-- A short string that has ended is not touched by what comes after it, unless that is a quote. -/
theorem string?_insert (hc : isQuote c = false) (h : string? (u ++ v) = some n) (hn : n ≤ u.length) :
    string? (u ++ c :: w) = some n := by
  obtain ⟨letters, q, rest, m, hletters, hq, htext, hshort, hm, rfl⟩ := string?_eq_some.1 h
  have hescape := (ne_of_isQuote hq).1
  have hne : c ≠ q := by
    rintro rfl
    rw [hq] at hc
    cases hc
  obtain ⟨ru, rfl, rfl⟩ := exists_rest_of_le htext (by omega)
  have hshort' : [q, q].isPrefixOf (ru ++ c :: w) = false := by
    rw [Bool.eq_false_iff, Ne, isPrefixOf_iff_prefix] at hshort ⊢
    intro hfront
    have hin : [q, q] <+: ru := (prefix_stop (by simp [hne])).1 hfront
    exact hshort (hin.trans (prefix_append ru v))
  refine string?_eq_some.2 ⟨letters, q, ru ++ c :: w, m, hletters, hq, by simp, hshort', ?_, rfl⟩
  refine closeShort_append hescape hm ?_
  simp only [length_append, length_cons] at hn
  omega

theorem longString?_insert (h : longString? (u ++ v) = some n) (hn : n ≤ u.length) :
    longString? (u ++ w) = some n := by
  obtain ⟨letters, q, rest, m, hletters, hq, htext, hlong, hm, rfl⟩ := longString?_eq_some.1 h
  obtain ⟨ru, rfl, rfl⟩ := exists_rest_of_le htext (by omega)
  simp only [length_append, length_cons] at hn
  have htwo : 2 ≤ ru.length := by omega
  have hfront (v : List Char) := isPrefixOf_append [q, q] htwo v
  rw [hfront] at hlong
  rw [drop_append_of_le_length htwo] at hm
  refine longString?_eq_some.2
    ⟨letters, q, ru ++ w, m, hletters, hq, by simp, ?_, ?_, rfl⟩
  · rw [hfront, hlong]
  · rw [drop_append_of_le_length htwo]
    refine closeLong_append hm ?_
    rw [length_drop]
    omega

end QueryScribe.Lexer
