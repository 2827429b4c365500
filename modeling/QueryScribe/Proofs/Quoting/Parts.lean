import QueryScribe.Proofs.Quoting.Escapes

/-!
# The parts of a token

A string on one line is made of letters, a quote, and what stands before the next quote that is not
escaped (`string?_eq_length_iff`). The body of a token is what stands between its quotes, with its
backslashes doubled if the token is raw (`body_eq`).
-/

namespace QueryScribe

open List

open Lexer

open StringToken in
theorem Quoting.facts_of_isQuote {c : Char} (h : isQuote c) :
    c ≠ '\\' ∧ isOctal c = false ∧ ∀ names rest, escape? names (c :: rest) = some ([c.toNat], 1) := by
  have hcases : c = '"' ∨ c = '\'' := by simpa [isQuote] using h
  rcases hcases with rfl | rfl
  · exact ⟨by decide, by decide, fun _ _ => rfl⟩
  · exact ⟨by decide, by decide, fun _ _ => rfl⟩

namespace StringToken

open Quoting

variable {letters inside : List Char} {q c : Char}

/-- The parts of a token: letters, a quote, and what stands before the next one. -/
structure Closed (letters : List Char) (q : Char) (inside : List Char) : Prop where
  letters : Lexer.isMark letters = true
  quote : isQuote q = true
  escaped : Escaped (· ≠ q) inside

theorem Closed.paired (h : Closed letters q inside) : Escaped (fun _ => True) inside :=
  h.escaped.mono fun _ _ => trivial

theorem Closed.not_long (h : Closed letters q inside) : [q, q].isPrefixOf (inside ++ [q]) = false := by
  have hslash := (facts_of_isQuote h.quote).1
  cases h.escaped with
  | nil => simp
  | plain _ hne _ => simp [List.isPrefixOf, Ne.symm hne]
  | pair _ => simp [List.isPrefixOf, hslash]

theorem string?_eq_length_iff {cs : List Char} : string? cs = some cs.length ↔
    ∃ letters q inside, Closed letters q inside ∧ '\n' ∉ inside ∧
      cs = letters ++ q :: (inside ++ [q]) := by
  constructor
  · intro h
    obtain ⟨letters, q, rest, m, hletters, hq, rfl, -, hm, hlength⟩ := string?_eq_some.1 h
    obtain ⟨inside, after, rfl, rfl, hescaped, hline⟩ :=
      exists_of_closeShort (facts_of_isQuote hq).1 hm
    have hafter : after = [] := by
      simp only [length_append, length_cons] at hlength
      exact length_eq_zero_iff.1 (by omega)
    exact ⟨letters, q, inside, ⟨hletters, hq, hescaped⟩, hline, by rw [hafter]⟩
  · rintro ⟨letters, q, inside, h, hline, rfl⟩
    have hbreak : q ≠ '\n' := (ne_of_isQuote h.quote).2
    have hclose := closeShort_of_escaped (facts_of_isQuote h.quote).1 hbreak h.escaped hline []
    refine string?_eq_some.2 ⟨letters, q, _, _, h.letters, h.quote, rfl, h.not_long, hclose, ?_⟩
    simp only [length_append, length_cons, length_nil]
    omega

theorem isMark_of_closed (h : Closed letters q inside) : (∀ c ∈ letters, isMark c) ∧
    isMark q = false ∧ letters.length ≤ 2 := by
  refine ⟨?_, ?_, ?_⟩
  · intro c hc
    have hletters := h.letters
    unfold Lexer.isMark at hletters
    unfold isMark
    split at hletters
    · cases hc
    · grind [Lexer.isMark.kind, Lexer.isMark.raw]
    · grind [Lexer.isMark.kind, Lexer.isMark.raw]
    · cases hletters
  · have hcases : q = '"' ∨ q = '\'' := by simpa [isQuote] using h.quote
    rcases hcases with rfl | rfl <;> rfl
  · have hletters := h.letters
    unfold Lexer.isMark at hletters
    split at hletters <;> simp_all

theorem span_isMark (h : Closed letters q inside) (rest : List Char) :
    (letters ++ q :: rest).takeWhile isMark = letters ∧
      (letters ++ q :: rest).dropWhile isMark = q :: rest := by
  obtain ⟨hletters, hq, -⟩ := isMark_of_closed h
  rw [takeWhile_append_of_pos hletters, dropWhile_append_of_pos hletters]
  simp [hq]

theorem isPrefixOf_quotes (h : Closed letters q inside) :
    ∃ front rest, quotes = front ++ [q] :: rest ∧
      ∀ quote ∈ front, quote.isPrefixOf (q :: (inside ++ [q])) = false := by
  have hlong := h.not_long
  have hcases : q = '\'' ∨ q = '"' := by simpa [isQuote, or_comm] using h.quote
  rcases hcases with rfl | rfl
  · exact ⟨quotes.take 2, [['"']], rfl, by simp [quotes, List.isPrefixOf, hlong]⟩
  · exact ⟨quotes.take 3, [], rfl, by simp [quotes, List.isPrefixOf, hlong]⟩

theorem beforeQuote?_append (q : Char) (inside : List Char) :
    beforeQuote? [q] (inside ++ [q]) = some inside := by
  have hend : [q].isSuffixOf (inside ++ [q]) := by simp
  simp [beforeQuote?, dropEnd?, hend]

/-- A raw token. -/
def isRaw (token : List Char) : Bool := (token.takeWhile isMark).any fun c => c.toLower = 'r'

theorem body_eq (h : Closed letters q inside) : body (letters ++ q :: (inside ++ [q])) =
    if isRaw (letters ++ q :: (inside ++ [q])) then doubleBackslashes inside else inside := by
  obtain ⟨htake, hdrop⟩ := span_isMark h (inside ++ [q])
  obtain ⟨-, -, hlength⟩ := isMark_of_closed h
  have hfound : quotes.findSome? (fun quote =>
      if quote.isPrefixOf (q :: (inside ++ [q])) then
        beforeQuote? quote ((q :: (inside ++ [q])).drop quote.length)
      else none) = some inside := by
    obtain ⟨front, rest, hquotes, hfront⟩ := isPrefixOf_quotes h
    have hnone : front.findSome? (fun quote =>
        if quote.isPrefixOf (q :: (inside ++ [q])) then
          beforeQuote? quote ((q :: (inside ++ [q])).drop quote.length)
        else none) = none := by
      rw [findSome?_eq_none_iff]
      intro quote hquote
      rw [hfront quote hquote]
      rfl
    rw [hquotes, findSome?_append, hnone]
    simp [beforeQuote?_append]
  simp only [body, isRaw, htake, hdrop, if_neg (Nat.not_lt.2 hlength), hfound]

end StringToken

end QueryScribe
