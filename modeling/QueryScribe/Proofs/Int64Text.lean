import QueryScribe.Proofs.IntegerTexts

/-!
# 64-bit integers given as text

A text is brought to the canonical numeral of the integer that it denotes. It is trimmed before the
underscores are taken out, so an underscore next to a blank keeps the blank from being trimmed; where
nothing but underscores, a sign and digits stands between the blanks, the two steps do not meet, and the
text has the value of its digits under the sign, unless these are too many (`int64Text_of_digits`).

Whatever a text looks like that is accepted, the result is the numeral of an integer of 64 bits
(`exists_of_int64Text`). Such a numeral has no leading zero (`eq_zero_of_head?_toDigits`) and is one of the
texts above, so it is its own result.
-/

namespace QueryScribe

open List

open Numeral

namespace Numeral

/-- The canonical decimal numeral of an integer: a minus if it is negative, and the digits of ASCII that
write it, without leading zeros. -/
def IsCanonical (n : Int) (cs : List Char) : Prop :=
  ∃ ds, cs = (if n < 0 then ['-'] else []) ++ ds ∧ positional 10 ds = n.natAbs ∧ ds ≠ [] ∧
    (∀ d ∈ ds, '0' ≤ d ∧ d ≤ '9') ∧ (ds.head? = some '0' → ds = ['0'])

/-- A spelling of an integer: its digits after any number of zeros and its sign, which may be a plus
where it is not negative, with underscores anywhere. -/
def IsSpelling (n : Int) (cs : List Char) : Prop :=
  ∃ sign zeros, (if n < 0 then sign = ['-'] else sign = [] ∨ sign = ['+']) ∧
    cs.filter (· ≠ '_') = sign ++ (List.replicate zeros '0' ++ Nat.toDigits 10 n.natAbs)

theorem eq_zero_of_head?_toDigits {n : Nat} (h : (Nat.toDigits 10 n).head? = some '0') : n = 0 := by
  have hzero : ∀ d < 10, Nat.digitChar d = '0' → d = 0 := by decide
  induction n using Nat.strongRecOn with
  | ind n ih =>
    rw [Nat.toDigits_eq_if (by decide)] at h
    split at h
    · rename_i hn
      exact hzero n hn (Option.some.inj h)
    · rename_i hn
      -- The first digit is that of the quotient, which is not zero.
      rw [head?_append_of_ne_nil _ Nat.toDigits_ne_nil] at h
      have := ih _ (Nat.div_lt_self (by omega) (by decide)) h
      omega

theorem isCanonical_decimal (n : Int) : IsCanonical n (decimal n).toList := by
  have hascii : ∀ d < 10, '0' ≤ Nat.digitChar d ∧ Nat.digitChar d ≤ '9' := by decide
  refine ⟨Nat.toDigits 10 n.natAbs, ?_, positional_toDigits (by decide) (by decide) _,
    Nat.toDigits_ne_nil, fun d hd => ?_, fun hhead => ?_⟩
  · rw [decimal, String.toList_ofList, write, append_assoc]
    rfl
  · obtain ⟨v, hv, rfl⟩ := exists_of_mem_toDigits (by decide) hd
    exact hascii v hv
  · rw [eq_zero_of_head?_toDigits hhead]
    rfl

theorem positional_replicate_append (zeros : Nat) (cs : List Char) :
    positional 10 (List.replicate zeros '0' ++ cs) = positional 10 cs := by
  induction zeros with
  | zero => rfl
  | succ zeros ih =>
    have hzero : digit '0' = 0 := by decide
    rw [replicate_succ, cons_append, positional, map_cons, Nat.ofDigits_reverse_cons, hzero,
      Nat.mul_zero, Nat.add_zero]
    exact ih

theorem IsSpelling.exists_digits {n : Int} {cs : List Char} (h : IsSpelling n cs) :
    ∃ sign ∈ signs, ∃ ds, cs.filter (· ≠ '_') = sign ++ ds ∧ ds ≠ [] ∧ (∀ d ∈ ds, Text.isDigit d) ∧
      n = if sign = ['-'] then -(positional 10 ds : Int) else positional 10 ds := by
  obtain ⟨sign, zeros, hsign, hcs⟩ := h
  have hdigits : ∀ d < 10, Text.isDigit (Nat.digitChar d) := by decide
  refine ⟨sign, ?_, _, hcs, append_ne_nil_of_right_ne_nil _ Nat.toDigits_ne_nil, fun d hd => ?_, ?_⟩
  · split at hsign
    · rw [hsign]
      decide
    · rcases hsign with rfl | rfl <;> decide
  · rcases mem_append.1 hd with hd | hd
    · rw [eq_of_mem_replicate hd]
      decide
    · obtain ⟨v, hv, rfl⟩ := exists_of_mem_toDigits (by decide) hd
      exact hdigits v hv
  · rw [positional_replicate_append, positional_toDigits (by decide) (by decide)]
    split at hsign
    · rw [if_pos hsign]
      omega
    · have hplain : sign ≠ ['-'] := by rcases hsign with rfl | rfl <;> decide
      rw [if_neg hplain]
      omega

theorem isSpelling_decimal (n : Int) : IsSpelling n (decimal n).toList := by
  refine ⟨if n < 0 then ['-'] else [], 0, ?_, ?_⟩
  · split
    · rfl
    · exact .inl rfl
  · rw [decimal, String.toList_ofList, filter_write (by decide) (by decide), write, append_assoc]
    rfl

end Numeral

namespace Literal

variable {text result : String}

theorem int64_int (n : Int) : int64 (.int n) =
    if -2 ^ 63 ≤ n ∧ n ≤ 2 ^ 63 - 1 then .ok n else .error (.showing (.int n) .int64Range) := by
  have hpow : Int.pow 2 63 = 2 ^ 63 := rfl
  change (if (decide (-Int.pow 2 63 ≤ n) && decide (n < Int.pow 2 63)) then Except.ok n
    else Except.error (Fault.showing (.int n) .int64Range)) = _
  rw [hpow]
  by_cases h : -2 ^ 63 ≤ n ∧ n ≤ 2 ^ 63 - 1
  · rw [if_pos h, if_pos]
    simp only [Bool.and_eq_true, decide_eq_true_eq]
    omega
  · rw [if_neg h, if_neg]
    simp only [Bool.and_eq_true, decide_eq_true_eq]
    omega

theorem exists_of_int64Text (h : int64Text text = .ok result) :
    ∃ n : Int, (-2 ^ 63 ≤ n ∧ n ≤ 2 ^ 63 - 1) ∧ result = decimal n := by
  unfold int64Text at h
  dsimp only at h
  split at h
  · split at h
    · rename_i n _
      rw [int64_int] at h
      split at h
      · rename_i hrange
        exact ⟨n, hrange, (Except.ok.inj h).symm⟩
      · cases h
    · cases h
  · cases h

/-- A text of a sign and digits, with underscores anywhere and blanks around, has the value of the digits
under the sign, unless there are too many digits. -/
theorem int64Text_of_digits {before core after sign ds : List Char}
    (htext : text.toList = before ++ core ++ after) (hbefore : ∀ c ∈ before, Text.isBlank c)
    (hafter : ∀ c ∈ after, Text.isBlank c) (hcore : core.filter (· ≠ '_') = sign ++ ds)
    (hsign : sign ∈ signs) (hne : ds ≠ []) (hdigits : ∀ d ∈ ds, Text.isDigit d) :
    int64Text text = if maxDigits < ds.length then .error (.conversion .tooManyDigits)
      else (int64 (.int (if sign = ['-'] then -(positional 10 ds : Int)
        else positional 10 ds))).map decimal := by
  have hkept : ∀ c ∈ sign ++ ds, Text.isBlank c = false ∧ c ≠ '\n' := by
    intro c hc
    rcases mem_append.1 hc with hc | hc
    · exact forall_of_mem_signs (p := fun c => Text.isBlank c = false ∧ c ≠ '\n') (by decide) (by decide)
        sign hsign c hc
    · refine ⟨isBlank_of_isDigit (hdigits c hc), ?_⟩
      rintro rfl
      exact absurd (hdigits _ hc) (by decide)
  have hplain : ∀ c ∈ core, Text.isBlank c = false := by
    intro c hc
    by_cases hline : c = '_'
    · rw [hline]
      decide
    · exact (hkept c (hcore ▸ mem_filter.2 ⟨hc, decide_eq_true hline⟩)).1
  have htrim : Text.trim text.toList = core := by
    rw [htext]
    exact Text.trimBy_append hbefore hafter (fun c hc => hplain c (mem_of_head? hc))
      fun c hc => hplain c (mem_of_getLast? hc)
  have hbreak : dropBreak (sign ++ ds) = sign ++ ds :=
    dropBreak_of_notMem fun h => (hkept _ h).2 rfl
  have htake : takeSign (sign ++ ds) = (decide (sign = ['-']), ds) := by
    refine takeSign_append hsign fun d hd => ?_
    have hd := hdigits d (mem_of_head? hd)
    constructor
    · rintro rfl
      exact absurd hd (by decide)
    · rintro rfl
      exact absurd hd (by decide)
  have hread : read? 10 (sign ++ ds) = some (if sign = ['-'] then -(positional 10 ds : Int)
      else positional 10 ds) := by
    have hdecimal : ∀ d ∈ ds, Lexer.isHexDigit d ∧ digit d < 10 := fun d hd =>
      ⟨by simp [Lexer.isHexDigit, hdigits d hd], (exists_ascii_of_isDigit (hdigits d hd)).1⟩
    have := read?_of_numeral hsign ((.head _) : [] ∈ marks 10) hdecimal
    rwa [nil_append, if_neg hne] at this
  have hcheck : (!ds.isEmpty && ds.all Text.isDigit) := by
    simp [hne, all_eq_true.2 hdigits]
  have hcount : (sign ++ ds).filter Text.isDigit = ds := by
    have hsigns : ∀ sign ∈ signs, sign.filter Text.isDigit = [] := by decide
    rw [filter_append, hsigns sign hsign, nil_append, filter_eq_self.2 hdigits]
  unfold int64Text
  dsimp only
  rw [htrim, hcore, hbreak, htake, readDecimal?, hcount, hread]
  refine (if_pos hcheck).trans ?_
  by_cases hlong : maxDigits < ds.length
  · rw [if_pos hlong, if_pos hlong]
  · rw [if_neg hlong, if_neg hlong]

/-- The text of an integer, spelled in any way and with blanks around, has the canonical numeral of the
integer as its result, unless it has too many digits or the integer does not fit into 64 bits. -/
theorem int64Text_of_spelling {n : Int} {before core after : List Char}
    (htext : text.toList = before ++ core ++ after) (hbefore : ∀ c ∈ before, Text.isBlank c)
    (hafter : ∀ c ∈ after, Text.isBlank c) (hcore : Numeral.IsSpelling n core) :
    int64Text text = if maxDigits < (core.filter Text.isDigit).length then
        .error (.conversion .tooManyDigits)
      else if -2 ^ 63 ≤ n ∧ n ≤ 2 ^ 63 - 1 then .ok (decimal n)
      else .error (.ofCause (.int64Range (decimal n))) := by
  obtain ⟨sign, hsign, ds, hds, hne, hdigits, hn⟩ := hcore.exists_digits
  have hcount : core.filter Text.isDigit = ds := by
    have hsigns : ∀ sign ∈ signs, sign.filter Text.isDigit = [] := by decide
    have hkept : core.filter Text.isDigit = (core.filter (· ≠ '_')).filter Text.isDigit := by
      rw [filter_filter]
      refine filter_congr fun c _ => ?_
      by_cases hc : c = '_'
      · rw [hc]
        decide
      · rw [decide_eq_true hc, Bool.and_true]
    rw [hkept, hds, filter_append, hsigns sign hsign, nil_append, filter_eq_self.2 hdigits]
  rw [int64Text_of_digits htext hbefore hafter hds hsign hne hdigits, ← hn, hcount, int64_int]
  split
  · rfl
  · rename_i hshort
    -- With few digits the integer can be shown in the message.
    have hsmall : n.natAbs < 10 ^ maxDigits := by
      have hlt : positional 10 ds < 10 ^ ds.length := positional_lt (by decide) fun d hd =>
        (exists_ascii_of_isDigit (hdigits d hd)).1
      have habs : n.natAbs = positional 10 ds := by
        rw [hn]
        split <;> simp
      rw [habs]
      exact hlt.trans_le (Nat.pow_le_pow_right (by decide) (not_lt.1 hshort))
    split
    · rfl
    · have hshown : Fault.showing (.int n) .int64Range = .ofCause (.int64Range (decimal n)) := by
        rw [Fault.showing, Number.write, Number.numeral_of_lt hsmall]
      rw [hshown]
      rfl

end Literal

/-- A result for a text is the canonical numeral of an integer of 64 bits, and its own result. Every
spelling of an integer of 64 bits with no more than 4300 digits, between any blanks, has the canonical
numeral of the integer as its result, and every such spelling of another integer fails, as a failure of
the source. A spelling with more digits, leading zeros counted, cannot be converted at all. -/
theorem int64Text_canonical (text : String) :
    (∀ result, Literal.int64Text text = .ok result →
      (∃ n : Int, (-2 ^ 63 ≤ n ∧ n ≤ 2 ^ 63 - 1) ∧ Numeral.IsCanonical n result.toList) ∧
        Literal.int64Text result = .ok result) ∧
    ∀ (n : Int) (before core after : List Char), text.toList = before ++ core ++ after →
      (∀ c ∈ before, Text.isBlank c) → (∀ c ∈ after, Text.isBlank c) → Numeral.IsSpelling n core →
      ((core.filter Text.isDigit).length ≤ maxDigits → (-2 ^ 63 ≤ n ∧ n ≤ 2 ^ 63 - 1) →
        Literal.int64Text text = .ok (decimal n)) ∧
      ((core.filter Text.isDigit).length ≤ maxDigits → ¬(-2 ^ 63 ≤ n ∧ n ≤ 2 ^ 63 - 1) →
        ∃ cause : Cause, cause.kind = .evaluation ∧
          Literal.int64Text text = .error (.ofCause cause)) ∧
      (maxDigits < (core.filter Text.isDigit).length →
        Literal.int64Text text = .error (.conversion .tooManyDigits)) := by
  refine ⟨fun result h => ?_, fun n before core after htext hbefore hafter hcore => ?_⟩
  · obtain ⟨n, hrange, rfl⟩ := Literal.exists_of_int64Text h
    have hwhole : (decimal n).toList = [] ++ (decimal n).toList ++ [] := by simp
    refine ⟨⟨n, hrange, isCanonical_decimal n⟩, ?_⟩
    have hsmall : n.natAbs < 10 ^ maxDigits :=
      (by omega : n.natAbs < 10 ^ 19).trans_le (Nat.pow_le_pow_right (by decide) (by decide))
    have hcount : ¬ maxDigits < ((decimal n).toList.filter Text.isDigit).length := by
      rw [decimal, String.toList_ofList]
      exact not_lt.2 (Literal.length_digits_write hsmall)
    rw [Literal.int64Text_of_spelling hwhole (forall_mem_nil _) (forall_mem_nil _)
      (isSpelling_decimal n), if_neg hcount,
      if_pos hrange]
  · rw [Literal.int64Text_of_spelling htext hbefore hafter hcore]
    refine ⟨fun hshort hrange => ?_, fun hshort hrange => ?_, fun hlong => if_pos hlong⟩
    · rw [if_neg (not_lt.2 hshort), if_pos hrange]
    · rw [if_neg (not_lt.2 hshort), if_neg hrange]
      exact ⟨_, rfl, rfl⟩

/-- One after more zeros than there may be digits. -/
theorem int64Text_of_many_zeros :
    ∃ text : String, text.toList = List.replicate maxDigits '0' ++ ['1'] ∧
      Literal.int64Text text = .error (.conversion .tooManyDigits) := by
  have hspelling : Numeral.IsSpelling 1 (List.replicate maxDigits '0' ++ ['1']) := by
    refine ⟨[], maxDigits, .inl rfl, ?_⟩
    rw [filter_eq_self.2 fun c hc => ?_]
    · rfl
    · rcases mem_append.1 hc with hc | hc
      · rw [eq_of_mem_replicate hc]
        decide
      · rw [mem_singleton.1 hc]
        decide
  refine ⟨String.ofList (List.replicate maxDigits '0' ++ ['1']), String.toList_ofList, ?_⟩
  have hwhole : (String.ofList (List.replicate maxDigits '0' ++ ['1'])).toList =
      [] ++ (List.replicate maxDigits '0' ++ ['1']) ++ [] := by
    rw [String.toList_ofList, nil_append, append_nil]
  rw [Literal.int64Text_of_spelling hwhole nofun nofun hspelling, if_pos]
  rw [filter_append, filter_replicate, if_pos (by decide), length_append, length_replicate]
  exact Nat.lt_succ_self _

/-- The smallest integer with a zero and underscores, and the one below it. -/
theorem int64Text_of_smallest :
    Literal.int64Text " -_09_223_372_036_854_775_808__\n" = .ok "-9223372036854775808" ∧
      ∃ cause : Cause, cause.kind = .evaluation ∧
        Literal.int64Text "-9223372036854775809" = .error (.ofCause cause) := by
  have hok := ((int64Text_canonical " -_09_223_372_036_854_775_808__\n").2 (-2 ^ 63) [' ']
    "-_09_223_372_036_854_775_808__".toList ['\n'] (by decide +kernel)
    (forall_mem_singleton.2 (by decide)) (forall_mem_singleton.2 (by decide))
    ⟨['-'], 1, by decide, by decide +kernel⟩).1 (by decide +kernel) (by decide)
  have herror := ((int64Text_canonical "-9223372036854775809").2 (-2 ^ 63 - 1) []
    "-9223372036854775809".toList [] (by decide +kernel) nofun nofun
    ⟨['-'], 0, by decide, by decide +kernel⟩).2.1 (by decide +kernel) (by decide)
  have hresult : decimal (-2 ^ 63) = "-9223372036854775808" := by decide +kernel
  rw [hresult] at hok
  exact ⟨hok, herror⟩

end QueryScribe
