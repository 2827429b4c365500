import QueryScribe.Literal.StringToken
import QueryScribe.Proofs.Lexeme.Quoted

/-!
# Quoted bodies

A body is read from the left: a backslash escapes the character after it, and all others stand for
themselves. `Escaped p cs` says that no backslash is left over at the end of a body and that the
characters that stand for themselves have a property. In these terms a string ends at the first quote
that is not escaped (`closeShort_of_escaped`, `exists_of_closeShort`), and quoting a body escapes the
quotes in use (`escaped_inner_iff`).
-/

namespace QueryScribe.Quoting

open List

/-- A body without a lone backslash at its end, in which all characters that no backslash escapes
have a property. -/
inductive Escaped (p : Char → Prop) : List Char → Prop
  | nil : Escaped p []
  | plain {c : Char} {cs : List Char} : c ≠ '\\' → p c → Escaped p cs → Escaped p (c :: cs)
  | pair {c : Char} {cs : List Char} : Escaped p cs → Escaped p ('\\' :: c :: cs)

namespace Escaped

variable {p p' : Char → Prop} {c : Char} {cs ds : List Char}

theorem plain_iff (hc : c ≠ '\\') : Escaped p (c :: cs) ↔ p c ∧ Escaped p cs := by
  refine ⟨fun h => ?_, fun h => .plain hc h.1 h.2⟩
  cases h with
  | plain _ hp h => exact ⟨hp, h⟩
  | pair => exact absurd rfl hc

@[simp]
theorem pair_iff : Escaped p ('\\' :: c :: cs) ↔ Escaped p cs := by
  refine ⟨fun h => ?_, .pair⟩
  cases h with
  | plain hc => exact absurd rfl hc
  | pair h => exact h

theorem mono (h : Escaped p cs) (hp : ∀ c, p c → p' c) : Escaped p' cs := by
  induction h with
  | nil => exact .nil
  | plain hc hpc _ ih => exact .plain hc (hp _ hpc) ih
  | pair _ ih => exact .pair ih

theorem append_iff (h : Escaped (fun _ => True) cs) :
    Escaped p (cs ++ ds) ↔ Escaped p cs ∧ Escaped p ds := by
  induction h with
  | nil => simp [Escaped.nil]
  | plain hc _ _ ih => simp [plain_iff hc, ih, and_assoc]
  | pair _ ih => simp [ih]

theorem flatten_iff {bodies : List (List Char)}
    (h : ∀ body ∈ bodies, Escaped (fun _ => True) body) :
    Escaped p bodies.flatten ↔ ∀ body ∈ bodies, Escaped p body := by
  induction bodies with
  | nil => simp [Escaped.nil]
  | cons body rest ih =>
    rw [flatten_cons, append_iff (h body (.head _)), forall_mem_cons,
      ih fun b hb => h b (.tail _ hb)]

theorem and_iff (h : Escaped (fun _ => True) cs) :
    Escaped (fun c => p c ∧ p' c) cs ↔ Escaped p cs ∧ Escaped p' cs := by
  induction h with
  | nil => simp [Escaped.nil]
  | plain hc _ _ ih => simp only [plain_iff hc, ih, and_and_and_comm]
  | pair _ ih => simp [ih]

end Escaped

theorem escaped_doubleBackslashes_iff {p : Char → Prop} {cs : List Char} :
    Escaped p (doubleBackslashes cs) ↔ ∀ c ∈ cs, c ≠ '\\' → p c := by
  induction cs with
  | nil => simp [doubleBackslashes, Escaped.nil]
  | cons c cs ih =>
    unfold doubleBackslashes at ih
    by_cases hc : c = '\\'
    · simp [doubleBackslashes, hc, ih]
    · simp [doubleBackslashes, hc, Escaped.plain_iff hc, ih]

/-! ## The closing quote -/

section Closing

open Lexer (closeShort closeShort_plain closeShort_escape)
open StringToken (splitAtQuote?)

variable {q : Char} {cs rest : List Char}

variable {body : List Char}

theorem closeShort_of_escaped (hq : q ≠ '\\') (hbreak : q ≠ '\n') (h : Escaped (· ≠ q) body)
    (hline : '\n' ∉ body) (rest : List Char) :
    closeShort q (body ++ q :: rest) = some (body.length + 1) := by
  induction h with
  | nil => simp [closeShort_plain hq, hbreak]
  | plain hc hne _ ih =>
    obtain ⟨hhead, htail⟩ := not_or.1 (mem_cons.not.1 hline)
    rw [cons_append, closeShort_plain hc, if_neg (Ne.symm hhead), ih htail]
    simp [hne]
  | pair _ ih =>
    simp only [mem_cons, not_or] at hline
    rw [cons_append, cons_append, closeShort_escape, if_neg (Ne.symm hline.2.1),
      ih hline.2.2]
    rfl

/-- Before the end of a string there is a body without an unescaped quote, on one line. -/
theorem exists_of_closeShort (hq : q ≠ '\\') : ∀ {cs : List Char} {n : Nat},
    closeShort q cs = some n → ∃ body rest, cs = body ++ q :: rest ∧ n = body.length + 1 ∧
      Escaped (· ≠ q) body ∧ '\n' ∉ body
  | [], _, h => nomatch h
  | [c], n, h => by
    by_cases hc : c = '\\'
    · subst hc
      simp [closeShort, hq.symm] at h
    · rw [closeShort_plain hc] at h
      split at h
      · cases h
      split at h
      · rename_i heq
        cases h
        exact ⟨[], [], by rw [beq_iff_eq.1 heq]; rfl, rfl, .nil, by simp⟩
      · cases h
  | c :: d :: cs, n, h => by
    by_cases hc : c = '\\'
    · subst hc
      rw [closeShort_escape] at h
      split at h
      · cases h
      · rename_i hd
        obtain ⟨m, hm, rfl⟩ := Option.map_eq_some_iff.1 h
        obtain ⟨body, rest, rfl, rfl, hbody, hline⟩ := exists_of_closeShort hq hm
        exact ⟨'\\' :: d :: body, rest, rfl, rfl, .pair hbody, by simp [Ne.symm hd, hline]⟩
    · rw [closeShort_plain hc] at h
      split at h
      · cases h
      rename_i hbreak
      split at h
      · rename_i heq
        cases h
        exact ⟨[], d :: cs, by rw [beq_iff_eq.1 heq]; rfl, rfl, .nil, by simp⟩
      · rename_i hne
        obtain ⟨m, hm, rfl⟩ := Option.map_eq_some_iff.1 h
        obtain ⟨body, rest, hrest, rfl, hbody, hline⟩ := exists_of_closeShort hq hm
        exact ⟨c :: body, rest, by rw [hrest]; rfl, rfl, .plain hc (by simpa using hne) hbody,
          by simp [Ne.symm hbreak, hline]⟩

theorem splitAtQuote?_of_escaped (hq : q ≠ '\\') (h : Escaped (fun c => c ≠ q ∧ c ≠ '\n') body)
    (rest : List Char) :
    splitAtQuote? [q] (body ++ q :: rest) = some (body, rest) := by
  induction h with
  | nil => simp [splitAtQuote?, hq]
  | plain hc hp _ ih =>
    rw [cons_append, splitAtQuote?, ih]
    · simp [Ne.symm hp.1, hp.2]
    · simp [hc]
  | pair _ ih => simp [splitAtQuote?, ih]

/-- A text is split only at the quote after a body on one line without an unescaped one. -/
theorem exists_of_splitAtQuote? (h : splitAtQuote? [q] cs = some (body, rest)) :
    cs = body ++ q :: rest ∧ Escaped (fun c => c ≠ q ∧ c ≠ '\n') body := by
  fun_induction splitAtQuote? [q] cs generalizing body rest with
  | case1 => cases h
  | case2 c cs ih =>
    obtain ⟨⟨front, after⟩, hsplit, heq⟩ := Option.map_eq_some_iff.1 h
    cases heq
    obtain ⟨rfl, hbody⟩ := ih hsplit
    exact ⟨rfl, .pair hbody⟩
  | case3 c cs _ hquote =>
    cases h
    obtain rfl : q = c := by simpa using hquote
    exact ⟨rfl, .nil⟩
  | case4 => cases h
  | case5 c cs hpair hquote hbreak ih =>
    obtain ⟨⟨front, after⟩, hsplit, heq⟩ := Option.map_eq_some_iff.1 h
    cases heq
    obtain ⟨rfl, hbody⟩ := ih hsplit
    have hne : c ≠ q := fun heq => hquote (by simp [heq])
    refine ⟨rfl, .plain ?_ ⟨hne, by simpa using hbreak⟩ hbody⟩
    -- A backslash that is no escape stands at the end, where no quote comes after it.
    rintro rfl
    obtain ⟨d, ds, hds⟩ : ∃ d ds, front ++ q :: rest = d :: ds := by
      cases front with
      | nil => exact ⟨_, _, rfl⟩
      | cons d ds => exact ⟨_, _, rfl⟩
    exact hpair d ds rfl hds

end Closing

/-! ## Quoting -/

section Inner

variable {q o c : Char} {cs : List Char}

/-- What stands between the quotes of kind `q` for a body: `o` is the other kind. -/
def inner (q o : Char) (body : List Char) : List Char := escape q false (unescape o body)

/-- A quote in use gets a backslash; any other character that escapes nothing stays. -/
theorem inner_plain (hc : c ≠ '\\') :
    inner q o (c :: cs) = if c = q then '\\' :: q :: inner q o cs else c :: inner q o cs := by
  have hunescape : unescape o (c :: cs) = c :: unescape o cs := by
    rw [unescape]
    simp [hc]
  unfold inner
  rw [hunescape, escape, if_neg hc]
  by_cases hq : c = q <;> simp [hq]

/-- A quote of the other kind loses its backslash; any other escape of no backslash stays. -/
theorem inner_pair (hq : q ≠ o) (ho : o ≠ '\\') (hc : c ≠ '\\') :
    inner q o ('\\' :: c :: cs) =
      if c = o then o :: inner q o cs else '\\' :: c :: inner q o cs := by
  unfold inner
  rw [unescape]
  by_cases hco : c = o
  · simp [hco, escape, ho, Ne.symm hq]
  · have hunescape : unescape o (c :: cs) = c :: unescape o cs := by
      rw [unescape]
      simp [hc]
    simp [hco, hunescape, escape, hc]

/-- Two backslashes stay, but one of them is lost before a quote of the other kind. -/
theorem inner_backslashes (hq : q ≠ o) (ho : o ≠ '\\') :
    inner q o ('\\' :: '\\' :: cs) =
      if cs.head? = some o then '\\' :: inner q o cs else '\\' :: '\\' :: inner q o cs := by
  have hunescape : unescape o ('\\' :: '\\' :: cs) = '\\' :: unescape o ('\\' :: cs) := by
    rw [unescape, if_neg (Ne.symm ho)]
  unfold inner
  rw [hunescape]
  cases cs with
  | nil => simp [unescape, escape]
  | cons d ds =>
    by_cases hd : d = o
    · have htail : unescape o (d :: ds) = d :: unescape o ds := by
        rw [unescape]
        simp [hd, ho]
      simp only [htail]
      simp [unescape, hd, escape, ho, Ne.symm hq]
    · simp [unescape, hd, escape]

/-- Between quotes no quote of their kind is left unescaped, and the other characters that escape
nothing are those of the body. -/
theorem escaped_inner_iff {p : Char → Prop} (hq : q ≠ o) (ho : o ≠ '\\') (hpq : p q) (hpo : p o)
    {body : List Char} (h : Escaped (fun _ => True) body) :
    Escaped (fun c => c ≠ q ∧ p c) (inner q o body) ↔ Escaped p body := by
  induction h with
  | nil => exact ⟨fun _ => .nil, fun _ => .nil⟩
  | @plain c cs hc _ _ ih =>
    rw [inner_plain hc, Escaped.plain_iff hc]
    split
    · rename_i hcq
      rw [Escaped.pair_iff, ih]
      simp [hcq, hpq]
    · rename_i hcq
      rw [Escaped.plain_iff hc, ih]
      simp [hcq]
  | @pair c cs _ ih =>
    rw [Escaped.pair_iff]
    by_cases hc : c = '\\'
    · subst hc
      rw [inner_backslashes hq ho]
      split
      · rename_i hhead
        obtain ⟨ds, rfl⟩ : ∃ ds, cs = o :: ds := by
          cases cs with
          | nil => cases hhead
          | cons d ds => exact ⟨ds, by rw [Option.some.inj hhead]⟩
        rw [← ih, inner_plain ho, if_neg (Ne.symm hq), Escaped.pair_iff, Escaped.plain_iff ho]
        simp [Ne.symm hq, hpo]
      · rw [Escaped.pair_iff, ih]
    · rw [inner_pair hq ho hc]
      split
      · rw [Escaped.plain_iff ho, ih]
        simp [Ne.symm hq, hpo]
      · rw [Escaped.pair_iff, ih]

theorem mem_of_mem_inner {body : List Char} (h : c ∈ inner q o body) : c = '\\' ∨ c ∈ body := by
  have hescape : ∀ (odd : Bool) (cs : List Char), c ∈ escape q odd cs → c = '\\' ∨ c ∈ cs := by
    intro odd cs h
    fun_induction escape q odd cs <;> grind
  have hunescape : ∀ cs : List Char, c ∈ unescape o cs → c ∈ cs := by
    intro cs h
    fun_induction unescape o cs <;> grind
  exact (hescape _ _ h).imp_right (hunescape _)

end Inner

end QueryScribe.Quoting
