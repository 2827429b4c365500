import QueryScribe.Proofs.Positional

/-!
# Integers and their texts

Two texts of integers have to agree with the evaluator. A literal that the lexer takes as an integer is,
underscores apart, the mark of its base and digits of the base (`Token.Lexed.numeral_of_integer`). It is
evaluated in the type that literals of its kind have, which sends it to one of four ways of reading it, and
all of them come to the positional value of the digits; only where the mark has no digit after it is there
nothing to read, and a decimal with too many digits is read as a double, which is infinite
(`number_of_integer_lexeme`).

The other texts are those that the program writes. Writing the digits of a number and taking their
positional value are inverse to each other in every base that is used (`positional_toDigits`), so each
integer is read back from its numeral, with the sign before the mark of the base (`read?_write`), and from
its canonical text in each type, unless the text is a decimal with too many digits (`number_of_canonical`).
-/

namespace QueryScribe

open List

open Literal Numeral Lexer

/-! ## What the scanners of integers take -/

namespace Lexer

variable {cs : List Char} {n : Nat}

theorem take_run (p : Char → Bool) (cs : List Char) : cs.take (run p cs) = cs.takeWhile p :=
  (prefix_iff_eq_take.1 ( takeWhile_prefix p)).symm

theorem exists_of_based? {lower upper : Char} {digit : Char → Bool}
    (h : based? lower upper digit cs = some n) :
    ∃ c ds, (c = lower ∨ c = upper) ∧ (∀ d ∈ ds, digit d) ∧ cs.take n = '0' :: c :: ds := by
  unfold based? at h
  split at h
  · rename_i c rest
    split at h
    · rename_i hc
      cases h
      refine ⟨c, rest.takeWhile digit, by simpa using hc, fun d hd => mem_takeWhile_imp hd, ?_⟩
      rw [Nat.add_comm, take_succ_cons, take_succ_cons, take_run]
    · cases h
  · cases h

theorem exists_of_decimal? (h : decimal? cs = some n) :
    ∃ c ds, '0' ≤ c ∧ c ≤ '9' ∧ (c = '0' → ds = []) ∧ (∀ d ∈ ds, isDigitOrUnderscore d) ∧
      cs.take n = c :: ds := by
  unfold decimal? at h
  split at h
  · cases h
    exact ⟨'0', [], by decide, by decide, fun _ => rfl, nofun, rfl⟩
  · rename_i c rest _
    split at h
    · rename_i hc
      simp only [Bool.and_eq_true, decide_eq_true_eq] at hc
      cases h
      refine ⟨c, rest.takeWhile isDigitOrUnderscore, Char.le_trans (by decide) hc.1, hc.2,
        fun hzero => ?_, fun d hd => mem_takeWhile_imp hd, ?_⟩
      · rw [hzero] at hc
        exact absurd hc.1 (by decide)
      · rw [Nat.add_comm, take_succ_cons, take_run]
    · cases h
  · cases h

theorem lexed_of_whole {token : Token} {length? : List Char → Option Nat}
    (hclass : (token.kind, length?) ∈ classes)
    (hwhole : length? token.text.toList = some token.text.length) : token.Lexed := by
  refine ⟨fun length?' hclass' => ⟨token.text.toList, token.text.length, ?_, ?_⟩, fun text hspelled => ?_⟩
  · rw [← eq_of_mem_classes hclass hclass', hwhole]
  · rw [← String.length_toList, take_length, String.ofList_toList]
  · exact absurd (mem_map_of_mem hclass) (notMem_classes_of_mem_spelled _ hspelled)

end Lexer

/-! ## Integer literals -/

/-- Rules of integer literals. -/
def Rule.isIntegral : Rule → Bool
  | .integerLiteral | .hexLiteral | .octLiteral | .binLiteral => true
  | _ => false

theorem Rule.eq_of_isIntegral {rule : Rule} (h : rule.isIntegral) :
    rule = .integerLiteral ∨ rule = .hexLiteral ∨ rule = .octLiteral ∨ rule = .binLiteral := by
  cases rule
  all_goals first | cases h; done | simp

/-- The base of the integer literals of a rule. -/
def Rule.base : Rule → Nat
  | .hexLiteral => 16
  | .octLiteral => 8
  | .binLiteral => 2
  | _ => 10

namespace Literal

/-- The characters of a literal that mean something. -/
def significant (text : String) : List Char := text.toList.filter (· ≠ '_')

/-- The digits of an integer literal of a rule, without the mark of its base and without underscores. -/
def digits (rule : Rule) (text : String) : List Char :=
  (text.toList.drop (if rule = .integerLiteral then 0 else 2)).filter (· ≠ '_')

/-- The value of an integer literal of a rule from its digits. -/
def integerValue (rule : Rule) (ds : List Char) : Number :=
  if rule = .integerLiteral ∧ maxDigits < ds.length then .double (.infinite false)
  else .int (positional rule.base ds)

end Literal

theorem toLower_ne_of_isDigit {c : Char} (h : Text.isDigit c) : c.toLower ≠ 'b' := by
  intro hlower
  have hletter : c = 'b' ∨ c = 'B' := by
    unfold Char.toLower at hlower
    split at hlower
    · have hval : c.val + 32 = 98 := congrArg Char.val hlower
      exact .inr (Char.ext ((UInt32.add_left_inj 32).1 hval))
    · exact .inl hlower
  rcases hletter with rfl | rfl
  · exact absurd h (by decide)
  · exact absurd h (by decide)

theorem Literal.startsWithMark_eq_false {mark : Char} {cs : List Char} (h : ∀ c ∈ cs, c.toLower ≠ mark) :
    startsWithMark mark cs = false := by
  unfold startsWithMark
  split
  · rename_i c rest
    simpa using h c (by simp)
  · rfl

theorem octal_digit {c : Char} (h : '0' ≤ c ∧ c ≤ '7') : isHexDigit c ∧ digit c < 8 := by
  have hall : ∀ n < 56, 48 ≤ n → isHexDigit (Char.ofNat n) ∧ digit (Char.ofNat n) < 8 := by
    decide
  have hc := hall c.toNat (Nat.lt_succ_of_le h.2) h.1
  rwa [Char.ofNat_toNat] at hc

namespace Token.Lexed

variable {token : Token} {rule : Rule}

theorem exists_of_mem (h : token.Lexed) {kind : Terminal} (hkind : token.kind = kind)
    {length? : List Char → Option Nat} (hmem : (kind, length?) ∈ classes) :
    ∃ cs n, length? cs = some n ∧ token.text.toList = cs.take n := by
  obtain ⟨cs, n, hn, htext⟩ := h.scanned length? (hkind ▸ hmem)
  exact ⟨cs, n, hn, by rw [htext, String.toList_ofList]⟩

/-- A decimal has digits only, the first of which is no zero if more follow. -/
theorem digits_of_decimal (h : token.Lexed) (hkind : token.kind = .decNumber) :
    (∃ c ds, significant token.text = c :: ds ∧ (digit c = 0 → ds = [])) ∧
      ∀ d ∈ significant token.text, Text.isDigit d := by
  obtain ⟨cs, n, hn, htext⟩ := h.exists_of_mem hkind (by simp [classes] : (_, decimal?) ∈ _)
  obtain ⟨c, ds, hlow, hhigh, hzero, hds, htake⟩ := exists_of_decimal? hn
  have hc : c ≠ '_' ∧ Text.isDigit c := by
    refine ⟨?_, ?_⟩
    · rintro rfl
      exact absurd hhigh (by decide)
    · have h0 : 0x30 ≤ c.toNat := hlow
      have h9 : c.toNat < 0x30 + 10 := Nat.lt_succ_of_le hhigh
      simp [Text.isDigit, Text.digit?, Text.zeros, h0, h9]
  rw [significant, htext, htake]
  refine ⟨⟨c, ds.filter (· ≠ '_'), by simp [hc.1], fun hdigit => ?_⟩, fun d hd => ?_⟩
  · have hall : ∀ n < 58, 48 ≤ n → digit (Char.ofNat n) = 0 → Char.ofNat n = '0' := by decide
    have hc := hall c.toNat (Nat.lt_succ_of_le hhigh) hlow
    rw [Char.ofNat_toNat] at hc
    rw [hzero (hc hdigit)]
    rfl
  obtain ⟨hd, hline⟩ := mem_filter.1 hd
  rcases mem_cons.1 hd with rfl | hd
  · exact hc.2
  · have := hds d hd
    simp only [isDigitOrUnderscore, Bool.or_eq_true, beq_iff_eq] at this
    exact this.resolve_right (by simpa using hline)

theorem significant_of_based (h : token.Lexed) {kind : Terminal} (hkind : token.kind = kind)
    {lower upper : Char} {digit : Char → Bool}
    (hmem : (kind, based? lower upper fun c => digit c || c == '_') ∈ classes)
    (hlower : lower ≠ '_') (hupper : upper ≠ '_') : ∃ c, (c = lower ∨ c = upper) ∧
      token.text.toList.filter (· ≠ '_') =
        '0' :: c :: (token.text.toList.drop 2).filter (· ≠ '_') ∧
      ∀ d ∈ (token.text.toList.drop 2).filter (· ≠ '_'), digit d := by
  obtain ⟨cs, n, hn, htext⟩ := h.exists_of_mem hkind hmem
  obtain ⟨c, ds, hc, hds, htake⟩ := exists_of_based? hn
  have hline : c ≠ '_' := by
    rcases hc with rfl | rfl
    · exact hlower
    · exact hupper
  rw [htext.trans htake]
  refine ⟨c, hc, by simp [hline], fun d hd => ?_⟩
  obtain ⟨hd, hline⟩ := mem_filter.1 hd
  have := hds d hd
  rw [Bool.or_eq_true, beq_iff_eq] at this
  exact this.resolve_right (by simpa using hline)

/-- An integer literal is, underscores apart, the mark of its base and digits of the base. A decimal
integer has no mark, and a digit at least. -/
theorem numeral_of_integer (h : token.Lexed) (hrule : rule.isIntegral)
    (hkind : token.kind ∈ rule.literalKinds) : ∃ mark ∈ marks rule.base,
      significant token.text = mark ++ digits rule token.text ∧
      (if rule = .integerLiteral then mark = [] ∧ digits rule token.text ≠ [] else mark ≠ []) ∧
      ∀ d ∈ digits rule token.text, isHexDigit d ∧ digit d < rule.base := by
  rcases Rule.eq_of_isIntegral hrule with rfl | rfl | rfl | rfl
  · obtain ⟨⟨c, ds, hcons, -⟩, hdigits⟩ := h.digits_of_decimal (mem_singleton.1 hkind)
    have hne : significant token.text ≠ [] := by rw [hcons]; exact cons_ne_nil c ds
    refine ⟨[], .head _, rfl, ⟨rfl, hne⟩, fun d hd => ?_⟩
    exact ⟨by simp [isHexDigit, hdigits d hd], (exists_ascii_of_isDigit (hdigits d hd)).1⟩
  · obtain ⟨c, hc, htext, hdigits⟩ := h.significant_of_based (mem_singleton.1 hkind)
      (.tail _ (.tail _ (.head _))) (by decide) (by decide)
    refine ⟨['0', c], by rcases hc with rfl | rfl <;> decide, htext, by simp, fun d hd => ?_⟩
    exact ⟨hdigits d hd, (exists_ascii_of_isHexDigit (hdigits d hd)).1⟩
  · obtain ⟨c, hc, htext, hdigits⟩ := h.significant_of_based (mem_singleton.1 hkind)
      (.tail _ (.tail _ (.tail _ (.head _)))) (by decide) (by decide)
    refine ⟨['0', c], by rcases hc with rfl | rfl <;> decide, htext, by simp, fun d hd => ?_⟩
    exact octal_digit (by simpa using hdigits d hd)
  · obtain ⟨c, hc, htext, hdigits⟩ := h.significant_of_based (mem_singleton.1 hkind)
      (.tail _ (.tail _ (.tail _ (.tail _ (.head _))))) (by decide) (by decide)
    refine ⟨['0', c], by rcases hc with rfl | rfl <;> decide, htext, by simp, fun d hd => ?_⟩
    have hd : d = '0' ∨ d = '1' := by simpa using hdigits d hd
    rcases hd with rfl | rfl <;> decide

/-- Evaluating an integer literal in its natural type is reading its digits in its base, after the mark
of the base or nothing, unless it is a decimal with too many digits. -/
theorem number_eq_integerIn (h : token.Lexed) (hrule : rule.isIntegral)
    (hkind : token.kind ∈ rule.literalKinds)
    (hshort : rule = .integerLiteral → (digits rule token.text).length ≤ maxDigits) (id i : Nat)
    (span : Span) :
    ∃ mark ∈ marks rule.base,
      number token.text (Tree.node id rule span [.leaf i token]).natural =
        (integerIn rule.base (mark ++ digits rule token.text)).mapError
          (.numericLiteral token.text) := by
  obtain ⟨mark, hmark, htext, hkept, hdigits⟩ := h.numeral_of_integer hrule hkind
  rw [significant] at htext
  -- The four natural types: the evaluator looks for a mark in all but the hexadecimal one.
  rcases Rule.eq_of_isIntegral hrule with rfl | rfl | rfl | rfl
  · obtain ⟨rfl, hne⟩ := hkept
    have hplain : startsWithMark 'b' (digits .integerLiteral token.text) = false := by
      have hall := (h.digits_of_decimal (mem_singleton.1 hkind)).2
      rw [significant, htext, nil_append] at hall
      exact startsWithMark_eq_false fun c hc => toLower_ne_of_isDigit (hall c hc)
    have hread := read?_of_digits hne hdigits
    refine ⟨[], hmark, ?_⟩
    change number token.text .long = _
    rw [nil_append] at htext ⊢
    have hcount := (length_filter_le Text.isDigit _).trans (hshort rfl)
    simp only [number, readDecimal?, htext, hplain, integerIn, Rule.base, not_lt.2 hcount] at hread ⊢
    rw [hread]
    rfl
  · refine ⟨mark, hmark, ?_⟩
    change number token.text .hex = _
    simp only [number, htext]
    rfl
  · rcases letter_of_mem_marks hmark with rfl | ⟨c, rfl, hletter, -⟩
    · exact absurd rfl hkept
    · have hstart : startsWithMark 'o' ('0' :: c :: digits .octLiteral token.text) :=
        decide_eq_true (Option.some.inj hletter).symm
      refine ⟨[], .head _, ?_⟩
      change number token.text .octal = _
      simp only [number, htext, cons_append, nil_append, hstart]
      rfl
  · rcases letter_of_mem_marks hmark with rfl | ⟨c, rfl, hletter, -⟩
    · exact absurd rfl hkept
    · have hstart : startsWithMark 'b' ('0' :: c :: digits .binLiteral token.text) :=
        decide_eq_true (Option.some.inj hletter).symm
      refine ⟨_, hmark, ?_⟩
      change number token.text .binary = _
      simp only [number, htext, cons_append, nil_append, hstart]
      rfl

theorem number_of_long_decimal (h : token.Lexed) (hkind : token.kind = .decNumber)
    (hlong : maxDigits < (digits .integerLiteral token.text).length) :
    number token.text .long = .ok (.double (.infinite false)) := by
  obtain ⟨⟨c, ds, hcons, hzero⟩, hdigits⟩ := h.digits_of_decimal hkind
  have hsame : digits .integerLiteral token.text = significant token.text := rfl
  rw [hsame] at hlong
  have hcount : (significant token.text).filter Text.isDigit = significant token.text :=
    filter_eq_self.2 hdigits
  have hplain : startsWithMark 'b' (significant token.text) = false :=
    startsWithMark_eq_false fun d hd => toLower_ne_of_isDigit (hdigits d hd)
  have hnone : readDecimal? (significant token.text) = none := by
    rw [readDecimal?, hcount, if_pos hlong]
  have hread : Double.read? (significant token.text) = some (.infinite false) := by
    rw [hcons] at hlong hdigits ⊢
    have hlength : 400 ≤ ds.length := Nat.le_of_lt_succ (Nat.lt_of_le_of_lt (by decide) hlong)
    refine double_of_long (fun hdigit => ?_) hdigits hlength
    rw [hzero hdigit] at hlength
    cases hlength
  rw [significant] at hplain hnone hread
  simp only [number, doubleOf, hplain, hnone, hread]
  rfl

theorem le_positional_of_long (h : token.Lexed) (hkind : token.kind = .decNumber)
    (hlong : maxDigits < (digits .integerLiteral token.text).length) :
    10 ^ maxDigits ≤ positional 10 (digits .integerLiteral token.text) := by
  obtain ⟨⟨c, ds, hcons, hzero⟩, -⟩ := h.digits_of_decimal hkind
  have hsame : digits .integerLiteral token.text = c :: ds := hcons
  rw [hsame, length_cons] at hlong
  have hc : 0 < digit c := by
    refine Nat.pos_of_ne_zero fun hdigit => ?_
    rw [hzero hdigit] at hlong
    exact absurd hlong (by decide)
  calc 10 ^ maxDigits ≤ 10 ^ ds.length := Nat.pow_le_pow_right (by decide) (Nat.le_of_lt_succ hlong)
    _ ≤ digit c * 10 ^ ds.length := Nat.le_mul_of_pos_left _ hc
    _ ≤ positional 10 (c :: ds) := by rw [positional_cons]; exact Nat.le_add_right _ _
    _ = positional 10 (digits .integerLiteral token.text) := by rw [hsame]

theorem number_of_integer (h : token.Lexed) (hrule : rule.isIntegral)
    (hkind : token.kind ∈ rule.literalKinds) (id i : Nat) (span : Span) :
    (digits rule token.text = [] → ∃ cause, cause.kind = .evaluation ∧
      number token.text (Tree.node id rule span [.leaf i token]).natural = .error cause) ∧
    (digits rule token.text ≠ [] →
      number token.text (Tree.node id rule span [.leaf i token]).natural =
        .ok (integerValue rule (digits rule token.text))) := by
  obtain ⟨mark, -, -, hkept, hdigits⟩ := h.numeral_of_integer hrule hkind
  by_cases hlong : rule = .integerLiteral ∧ maxDigits < (digits rule token.text).length
  · obtain ⟨rfl, hlong'⟩ := hlong
    rw [if_pos rfl] at hkept
    refine ⟨fun hnone => absurd hnone hkept.2, fun _ => ?_⟩
    rw [integerValue, if_pos ⟨rfl, hlong'⟩]
    exact h.number_of_long_decimal (mem_singleton.1 hkind) hlong'
  rw [integerValue, if_neg hlong]
  obtain ⟨mark, hmark, hnumber⟩ := h.number_eq_integerIn hrule hkind
    (fun hrule' => not_lt.1 fun hlt => hlong ⟨hrule', hlt⟩) id i span
  have hread := read?_of_numeral ((.head _) : [] ∈ Numeral.signs) hmark hdigits
  rw [nil_append] at hread
  rw [hnumber, integerIn, hread]
  refine ⟨fun hnone => ?_, fun hsome => ?_⟩
  · rw [if_pos hnone]
    exact ⟨_, rfl, rfl⟩
  · rw [if_neg hsome]
    rfl

end Token.Lexed

/-- A text that the lexer takes as a whole for a decimal, hexadecimal, octal or binary integer is
evaluated in its natural type to the positional value of its digits, unless it is a decimal of more than
4300 digits, which is evaluated to infinity. The evaluation fails, as a failure of the source, exactly
where no digit follows the mark of the base. -/
theorem number_of_integer_lexeme {rule : Rule} (hrule : rule.isIntegral) {token : Token}
    (hkind : token.kind ∈ rule.literalKinds) {length? : List Char → Option Nat}
    (hclass : (token.kind, length?) ∈ classes)
    (hwhole : length? token.text.toList = some token.text.length) (id i : Nat) (span : Span) :
    ((∃ cause, cause.kind = .evaluation ∧
        number token.text (Tree.node id rule span [.leaf i token]).natural = .error cause) ↔
      digits rule token.text = []) ∧
    (digits rule token.text ≠ [] →
      number token.text (Tree.node id rule span [.leaf i token]).natural =
        if rule = .integerLiteral ∧ maxDigits < (digits rule token.text).length then
          .ok (.double (.infinite false))
        else .ok (.int (positional rule.base (digits rule token.text)))) := by
  obtain ⟨hnone, hsome⟩ :=
    (lexed_of_whole hclass hwhole).number_of_integer hrule hkind id i span
  refine ⟨⟨fun ⟨cause, _, herror⟩ => ?_, hnone⟩, fun hne => ?_⟩
  · by_contra hne
    rw [hsome hne] at herror
    cases herror
  · rw [hsome hne, integerValue, apply_ite Except.ok]

/-- An octal literal with underscores, and one without digits. -/
theorem number_of_octal_lexemes :
    number "0O_1_7" .octal = .ok (.int 15) ∧
      ∃ cause, cause.kind = .evaluation ∧ number "0o_" .octal = .error cause :=
  ⟨(number_of_integer_lexeme (rfl : Rule.octLiteral.isIntegral = true)
      (List.mem_singleton.2 rfl : (⟨.octNumber, "0O_1_7", ⟨0, 0⟩⟩ : Token).kind ∈ _)
      (.tail _ (.tail _ (.tail _ (.head _)))) (by decide +kernel) 0 0 ⟨0, 0⟩).2 (by decide +kernel),
    (number_of_integer_lexeme (rfl : Rule.octLiteral.isIntegral = true)
      (List.mem_singleton.2 rfl : (⟨.octNumber, "0o_", ⟨0, 0⟩⟩ : Token).kind ∈ _)
      (.tail _ (.tail _ (.tail _ (.head _)))) (by decide +kernel) 0 0 ⟨0, 0⟩).1.2 (by decide +kernel)⟩

/-- A decimal with one digit too many is evaluated to infinity. -/
theorem number_of_long_lexeme :
    ∃ text : String, text.toList = replicate (maxDigits + 1) '1' ∧
      decimal? text.toList = some text.length ∧
        number text .long = .ok (.double (.infinite false)) := by
  have hdecimal : decimal? (replicate (maxDigits + 1) '1') = some (maxDigits + 1) := by decide +kernel
  let token : Token := ⟨.decNumber, .ofList (replicate (maxDigits + 1) '1'), ⟨0, 0⟩⟩
  have hwhole : decimal? token.text.toList = some token.text.length := by
    rw [String.toList_ofList, hdecimal, String.length_ofList, length_replicate]
  refine ⟨token.text, String.toList_ofList, hwhole, ?_⟩
  refine (lexed_of_whole (by simp [classes, token] : (token.kind, decimal?) ∈ _)
    hwhole).number_of_long_decimal rfl ?_
  rw [digits, String.toList_ofList, if_pos rfl, drop_zero, filter_replicate, if_pos (by decide),
    length_replicate]
  exact Nat.lt_succ_self _

/-! ## Integers that are written -/

namespace Numeral

variable {base : Nat}

theorem exists_of_mem_toDigits {n : Nat} (hbase : 1 < base) {c : Char}
    (h : c ∈ Nat.toDigits base n) : ∃ d < base, c = Nat.digitChar d := by
  induction n using Nat.strongRecOn with
  | ind n ih =>
    rw [Nat.toDigits_eq_if hbase] at h
    split at h
    · rename_i hn
      exact ⟨n, hn, mem_singleton.1 h⟩
    · rename_i hn
      rcases mem_append.1 h with h | h
      · exact ih _ (Nat.div_lt_self (by omega) hbase) h
      · exact ⟨n % base, Nat.mod_lt _ (by omega), mem_singleton.1 h⟩

theorem digit_digitChar : ∀ d < 16, isHexDigit (Nat.digitChar d) ∧ digit (Nat.digitChar d) = d ∧
    Nat.digitChar d ≠ '_' := by
  decide

theorem positional_concat (cs : List Char) (c : Char) :
    positional base (cs ++ [c]) = positional base cs * base + digit c := by
  rw [positional, positional, map_append, reverse_append, map_singleton,
    reverse_singleton, singleton_append, Nat.ofDigits_cons]
  exact (Nat.add_comm _ _).trans (by rw [Nat.mul_comm])

theorem positional_toDigits (hbase : 1 < base) (hle : base ≤ 16) (n : Nat) :
    positional base (Nat.toDigits base n) = n := by
  induction n using Nat.strongRecOn with
  | ind n ih =>
    rw [Nat.toDigits_eq_if hbase]
    split
    · rename_i hn
      have hdigit := (digit_digitChar n (by omega)).2.1
      simp [positional, hdigit]
    · rename_i hn
      have hlast : n % base < base := Nat.mod_lt n (by omega)
      have hdigit := (digit_digitChar (n % base) (by omega)).2.1
      calc positional base (Nat.toDigits base (n / base) ++ [Nat.digitChar (n % base)])
          = positional base (Nat.toDigits base (n / base)) * base + n % base := by
            rw [positional_concat, hdigit]
        _ = n / base * base + n % base := by
            rw [ih _ (Nat.div_lt_self (by omega) hbase)]
        _ = n := Nat.div_add_mod' n base

theorem exists_of_write (base : Nat) (n : Int) :
    ∃ sign ∈ signs, ∃ mark ∈ marks base, write base n = sign ++ (mark ++ Nat.toDigits base n.natAbs) ∧
      (sign = ['-'] ↔ n < 0) := by
  refine ⟨if n < 0 then ['-'] else [], ?_, (baseMark? base).elim [] fun c => ['0', c], ?_, ?_, ?_⟩
  · split <;> decide
  · cases hmark : baseMark? base <;> simp [marks, hmark]
  · rw [write, append_assoc]
    cases baseMark? base <;> rfl
  · split <;> simp [*]

theorem digits_of_toDigits (hbase : 1 < base) (hle : base ≤ 16) (n : Nat) :
    ∀ c ∈ Nat.toDigits base n, (isHexDigit c ∧ digit c < base) ∧ c ≠ '_' := by
  intro c hc
  obtain ⟨d, hd, rfl⟩ := exists_of_mem_toDigits hbase hc
  obtain ⟨hhex, hdigit, hline⟩ := digit_digitChar d (by omega)
  exact ⟨⟨hhex, by omega⟩, hline⟩

theorem read?_write (hbase : 1 < base) (hle : base ≤ 16) (n : Int) :
    read? base (write base n) = some n := by
  obtain ⟨sign, hsign, mark, hmark, hwrite, hneg⟩ := exists_of_write base n
  rw [hwrite, read?_of_numeral hsign hmark fun c hc => (digits_of_toDigits hbase hle _ c hc).1,
    if_neg Nat.toDigits_ne_nil, positional_toDigits hbase hle]
  simp only [hneg]
  congr 1
  omega

theorem filter_write (hbase : 1 < base) (hle : base ≤ 16) (n : Int) :
    (write base n).filter (· ≠ '_') = write base n := by
  obtain ⟨sign, hsign, mark, hmark, hwrite, -⟩ := exists_of_write base n
  have hsigns : ∀ c ∈ sign, c ≠ '_' := forall_of_mem_signs (by decide) (by decide) sign hsign
  have hmarks : ∀ c ∈ mark, c ≠ '_' := by
    rcases letter_of_mem_marks hmark with rfl | ⟨c, rfl, -, -, v, hv⟩
    · nofun
    · exact forall_mem_cons.2
        ⟨by decide, forall_mem_singleton.2 (plain_of_digitValue? hv).2.2.2⟩
  rw [filter_eq_self, hwrite]
  intro c hc
  refine decide_eq_true ?_
  rcases mem_append.1 hc with hc | hc
  · exact hsigns c hc
  · rcases mem_append.1 hc with hc | hc
    · exact hmarks c hc
    · exact (digits_of_toDigits hbase hle _ c hc).2

theorem toLower_ne_of_mem_write {n : Int} {c : Char} (h : c ∈ write 10 n) : c.toLower ≠ 'b' := by
  obtain ⟨sign, hsign, mark, hmark, hwrite, -⟩ := exists_of_write 10 n
  obtain rfl := eq_nil_of_mem_marks hmark rfl
  have hdigits : ∀ d < 10, (Nat.digitChar d).toLower ≠ 'b' := by decide
  rw [hwrite, nil_append] at h
  rcases mem_append.1 h with h | h
  · exact forall_of_mem_signs (p := (·.toLower ≠ 'b')) (by decide) (by decide) sign hsign c h
  · obtain ⟨d, hd, rfl⟩ := exists_of_mem_toDigits (by decide) h
    exact hdigits d hd

end Numeral

/-- The types that integers are written as. -/
def SignedInteger.types : List ValueType := [.integer, .long, .hex, .octal]

namespace Literal

theorem length_digits_write {n : Int} (h : n.natAbs < 10 ^ maxDigits) :
    ((write 10 n).filter Text.isDigit).length ≤ maxDigits := by
  obtain ⟨sign, hsign, mark, hmark, hwrite, -⟩ := exists_of_write 10 n
  obtain rfl := eq_nil_of_mem_marks hmark rfl
  have hsigns : ∀ sign ∈ Numeral.signs, sign.filter Text.isDigit = [] := by decide
  rw [hwrite, filter_append, hsigns sign hsign, nil_append, nil_append]
  exact (length_filter_le _ _).trans ((Nat.length_toDigits_le_iff (by decide) (by decide)).2 h)

theorem readDecimal?_write {n : Int} (h : n.natAbs < 10 ^ maxDigits) :
    readDecimal? (write 10 n) = some n := by
  rw [readDecimal?, if_neg (not_lt.2 (length_digits_write h)), read?_write (by decide) (by decide)]

/-- The canonical text of an integer in each type has the integer as its value, unless it would be a
decimal with too many digits. -/
theorem exists_number_of_canonical {type : ValueType} (htype : type ∈ SignedInteger.types) {n : Int}
    (hn : type = .hex ∨ type = .octal ∨ n.natAbs < 10 ^ maxDigits) :
    ∃ text, canonical (.int n) type = .ok text ∧ number text type = .ok (.int n) := by
  have hdecimal : ∀ {type : ValueType}, n.natAbs < 10 ^ maxDigits → type ≠ .octal → type ≠ .hex →
      type ≠ .decimal → number (decimal n) type = .ok (.int n) := by
    intro type hn hoctal hhex hdouble
    have hread := readDecimal?_write hn
    have hplain : startsWithMark 'b' (write 10 n) = false :=
      startsWithMark_eq_false fun c hc => toLower_ne_of_mem_write hc
    simp only [number, decimal, String.toList_ofList,
      filter_write (by decide : 1 < 10) (by decide) n, hplain, hread]
    rfl
  simp only [SignedInteger.types, mem_cons, not_mem_nil, or_false] at htype
  rcases htype with rfl | rfl | rfl | rfl
  · replace hn := hn.resolve_left nofun |>.resolve_left nofun
    exact ⟨_, Number.numeral_of_lt hn, hdecimal hn nofun nofun nofun⟩
  · replace hn := hn.resolve_left nofun |>.resolve_left nofun
    exact ⟨_, Number.numeral_of_lt hn, hdecimal hn nofun nofun nofun⟩
  · refine ⟨_, rfl, ?_⟩
    simp only [number, String.toList_ofList, filter_write (by decide : 1 < 16) (by decide) n,
      integerIn, read?_write (by decide : 1 < 16) (by decide) n]
    rfl
  · refine ⟨_, rfl, ?_⟩
    -- The mark is dropped where it comes first; a minus stands before it, and then it is read past.
    have hread : integerIn 8 (if startsWithMark 'o' (write 8 n) then (write 8 n).drop 2
        else write 8 n) = .ok (.int n) := by
      by_cases hn : n < 0
      · have hwrite : write 8 n = '-' :: '0' :: 'o' :: Nat.toDigits 8 n.natAbs := by
          rw [write, if_pos hn]
          rfl
        have hplain : startsWithMark 'o' (write 8 n) = false := by rw [hwrite]; rfl
        rw [hplain, integerIn, if_neg nofun, read?_write (by decide) (by decide) n]
      · have hwrite : write 8 n = '0' :: 'o' :: Nat.toDigits 8 n.natAbs := by
          rw [write, if_neg hn]
          rfl
        have hdigits := digits_of_toDigits (by decide : 1 < 8) (by decide) n.natAbs
        have hmark : startsWithMark 'o' (write 8 n) := by rw [hwrite]; rfl
        rw [hmark, if_pos rfl, hwrite, drop_succ_cons, drop_succ_cons, drop_zero, integerIn,
          read?_of_digits Nat.toDigits_ne_nil fun c hc => (hdigits c hc).1,
          positional_toDigits (by decide) (by decide)]
        simp only [Int.natCast_natAbs, abs_of_nonneg (not_lt.1 hn)]
    simp only [number, String.toList_ofList, filter_write (by decide : 1 < 8) (by decide) n, hread]
    rfl

end Literal

/-- Every integer is read back from its canonical text in each of the integer types, and no other integer
has this text. Only as a decimal an integer of more than 4300 digits has no text at all. -/
theorem number_of_canonical {type : ValueType} (htype : type ∈ SignedInteger.types) (n : Int) :
    ((type = .integer ∨ type = .long) → 10 ^ maxDigits ≤ n.natAbs →
      canonical (.int n) type = .error .tooManyDigits) ∧
    ((type = .hex ∨ type = .octal ∨ n.natAbs < 10 ^ maxDigits) →
      ∃ text, canonical (.int n) type = .ok text ∧ number text type = .ok (.int n) ∧
        ∀ m : Int, canonical (.int m) type = .ok text → m = n) := by
  refine ⟨fun hdecimal hn => ?_, fun hn => ?_⟩
  · rcases hdecimal with rfl | rfl
    · exact Number.numeral_of_le hn
    · exact Number.numeral_of_le hn
  · obtain ⟨text, htext, hnumber⟩ := exists_number_of_canonical htype hn
    refine ⟨text, htext, hnumber, fun m hm => ?_⟩
    have hm' : type = .hex ∨ type = .octal ∨ m.natAbs < 10 ^ maxDigits := by
      by_contra hlong
      push Not at hlong
      simp only [SignedInteger.types, mem_cons, not_mem_nil, or_false] at htype
      have herror : canonical (.int m) type = .error .tooManyDigits := by
        rcases htype with rfl | rfl | rfl | rfl
        · exact Number.numeral_of_le hlong.2.2
        · exact Number.numeral_of_le hlong.2.2
        · exact absurd rfl hlong.1
        · exact absurd rfl hlong.2.1
      rw [herror] at hm
      cases hm
    obtain ⟨text', htext', hnumber'⟩ := exists_number_of_canonical htype hm'
    obtain rfl : text = text' := Except.ok.inj (hm.symm.trans htext')
    exact Number.int.inj (Except.ok.inj (hnumber'.symm.trans hnumber))

/-- An integer with too many digits has no decimal text. -/
theorem canonical_of_long_integer :
    ∃ n : Int, 10 ^ maxDigits ≤ n.natAbs ∧ canonical (.int n) .integer = .error .tooManyDigits := by
  obtain ⟨n, hn⟩ : ∃ n : Int, 10 ^ maxDigits ≤ n.natAbs := by
    generalize 10 ^ maxDigits = k
    exact ⟨k, (Int.natAbs_natCast k).ge⟩
  exact ⟨n, hn, Number.numeral_of_le hn⟩

/-- A negative integer in base eight. -/
theorem number_of_canonical_octal :
    ∃ text, canonical (.int (-8)) .octal = .ok text ∧ number text .octal = .ok (.int (-8)) := by
  obtain ⟨text, htext, hnumber, -⟩ :=
    (number_of_canonical (by decide : ValueType.octal ∈ SignedInteger.types) (-8)).2 (.inr (.inl rfl))
  exact ⟨text, htext, hnumber⟩

end QueryScribe
