import QueryScribe.Proofs.IntegerTexts

/-!
# The values of number literals

A literal that was read has a value that can be converted, unless it is too large: an integer of at
least `2^1023`, or a float, which may denote infinity (`Formed.isLarge_of_toInt`,
`Formed.isLarge_of_toDouble`). This rests on the characters that the scanners of numbers let through.
No letter of the word for what is no number is among them, the texts of integers have no minus, and
the texts of imaginary numbers end in a letter that no numeral has, so they denote nothing.
-/

namespace QueryScribe

open List

open Literal Text

/-! ## Large integers -/

theorem two_pow_le_of_natAbs {n : Int} {k : Nat} (hn : 0 ≤ n) (h : 2 ^ k ≤ n.natAbs) :
    (2 : Int) ^ k ≤ n := by
  rw [← Int.natAbs_of_nonneg hn]
  exact_mod_cast h

namespace Double

theorem le_of_ofInt_eq_infinite {n : Int} {negative : Bool} (h : ofInt n = .infinite negative) :
    2 ^ 1023 ≤ n.natAbs := by
  unfold ofInt ofRatio at h
  split at h
  · cases h
  · rename_i hne
    dsimp only at h
    generalize hk : (n.natAbs.log2 : Int) - (1 : Nat).log2 = k at h
    generalize he : max _ minExponent = e at h
    generalize (if 0 ≤ e then _ else _ : Nat) = m at h
    -- Rounding up to the next power of two raises the exponent by one at most.
    have hlarge : maxExponent ≤ e := by
      by_contra hlt
      split at h <;> rw [if_neg (by dsimp only; omega)] at h <;> cases h
    have hk' : 1023 ≤ k := by
      simp only [maxExponent, minExponent] at hlarge he
      split at he <;> omega
    have hone : (1 : Nat).log2 = 0 := by decide
    calc 2 ^ 1023 ≤ 2 ^ n.natAbs.log2 := Nat.pow_le_pow_right (by decide) (by omega)
      _ ≤ n.natAbs := Nat.log2_self_le hne

theorem ofRatio_ne_nan (negative : Bool) (num den : Nat) : ofRatio negative num den ≠ .nan := by
  unfold ofRatio
  dsimp only
  generalize (if _ = 2 ^ 53 then _ else _ : Nat × Int) = p
  split
  · exact nofun
  · split
    · exact nofun
    · exact nofun

theorem ofScientific_ne_nan (negative : Bool) (coefficient : Nat) (exponent : Int) :
    ofScientific negative coefficient exponent ≠ .nan := by
  unfold ofScientific
  dsimp only
  split
  · exact nofun
  · split
    · exact nofun
    · split
      · exact nofun
      · split
        · exact ofRatio_ne_nan _ _ _
        · exact ofRatio_ne_nan _ _ _

end Double

/-! ## Characters of numerals -/

namespace Text

variable {p : Char → Bool} {cs : List Char} {c : Char}

theorem mem_of_mem_trimBy (h : c ∈ trimBy p cs) : c ∈ cs := by
  have h' := (dropWhile_suffix p).subset (mem_reverse.1 h)
  exact (dropWhile_suffix p).subset (mem_reverse.1 h')

theorem mem_dropWhile_of_mem (h : c ∈ cs) (hc : p c = false) : c ∈ cs.dropWhile p := by
  rw [← takeWhile_append_dropWhile (p := p) (l := cs)] at h
  rcases mem_append.1 h with h | h
  · rw [mem_takeWhile_imp h] at hc
    cases hc
  · exact h

theorem mem_trimBy_of_mem (h : c ∈ cs) (hc : p c = false) : c ∈ trimBy p cs :=
  mem_reverse.2 (mem_dropWhile_of_mem (mem_reverse.2 (mem_dropWhile_of_mem h hc)) hc)

end Text

namespace Numeral

variable {cs ds : List Char} {c : Char} {base : Nat}

theorem mem_of_mem_toAscii? (h : toAscii? cs = some ds) (hc : c ∈ ds) :
    c ∈ cs ∨ c = ' ' ∨ ∃ d < 10, c = Nat.digitChar d := by
  obtain ⟨i, hi, rfl⟩ := mem_iff_getElem.1 hc
  have hall := mapM_eq_some_iff.1 h
  have hlength := hall.length_eq
  have hchar := hall.get (i := i) (by omega) hi
  simp only [get_eq_getElem] at hchar
  split at hchar
  · exact .inl (Option.some.inj hchar ▸ getElem_mem _)
  · split at hchar
    · exact .inr (.inl (Option.some.inj hchar).symm)
    · obtain ⟨d, hd, heq⟩ := Option.map_eq_some_iff.1 hchar
      refine .inr (.inr ⟨d, ?_, heq.symm⟩)
      obtain ⟨first, hfind, rfl⟩ := Option.map_eq_some_iff.1 hd
      have hfound := find?_some hfind
      simp only [Bool.and_eq_true, decide_eq_true_eq] at hfound
      omega

theorem mem_toAscii?_of_mem (h : toAscii? cs = some ds) (hc : c ∈ cs) (hascii : c.toNat < 127) :
    c ∈ ds := by
  obtain ⟨i, hi, rfl⟩ := mem_iff_getElem.1 hc
  have hall := mapM_eq_some_iff.1 h
  have hlength := hall.length_eq
  have hchar := hall.get (i := i) hi (by omega)
  simp only [get_eq_getElem, if_pos hascii] at hchar
  exact Option.some.inj hchar ▸ getElem_mem _

theorem mem_of_mem_takeSign (h : c ∈ (takeSign cs).2) : c ∈ cs := by
  unfold takeSign at h
  split at h
  · exact .tail _ h
  · exact .tail _ h
  · exact h

theorem mem_takeSign_of_mem (h : c ∈ cs) (hplus : c ≠ '+') (hminus : c ≠ '-') :
    c ∈ (takeSign cs).2 := by
  unfold takeSign
  split
  · exact mem_of_ne_of_mem hplus h
  · exact mem_of_ne_of_mem hminus h
  · exact h

theorem mem_dropMark_of_mem (h : c ∈ cs) (hzero : c ≠ '0') (hline : c ≠ '_')
    (hmark : baseMark? base ≠ some c.toLower) : c ∈ dropMark base cs := by
  unfold dropMark
  split
  · rename_i d rest
    split
    · rename_i hd
      have hne : c ≠ d := by
        rintro rfl
        exact hmark hd
      have hrest := mem_of_ne_of_mem hne (mem_of_ne_of_mem hzero h)
      split
      · exact mem_of_ne_of_mem hline hrest
      · exact hrest
    · exact h
  · exact h

theorem digitValue?_of_readDigits {value n : Nat} {afterDigit : Bool}
    (h : readDigits base value afterDigit cs = some n) (hc : c ∈ cs) :
    c = '_' ∨ ∃ d < base, digitValue? c = some d := by
  fun_induction readDigits base value afterDigit cs with
  | case1 => cases hc
  | case2 => cases hc
  | case3 value rest ih =>
    rcases mem_cons.1 hc with rfl | hc
    · exact .inl rfl
    · exact ih h hc
  | case4 => cases h
  | case5 value afterDigit first rest hline d hd hlt ih =>
    rcases mem_cons.1 hc with rfl | hc
    · exact .inr ⟨d, hlt, hd⟩
    · exact ih h hc
  | case6 => cases h
  | case7 => cases h

theorem exists_of_read? {n : Int} (h : read? base cs = some n) : ∃ ds, toAscii? cs = some ds ∧ ∃ m : Nat,
    readDigits base 0 false (dropMark base (takeSign (trimBy isNarrowBlank ds)).2) = some m ∧
      n = if (takeSign (trimBy isNarrowBlank ds)).1 then -(m : Int) else m := by
  obtain ⟨ds, hds, h⟩ := Option.bind_eq_some_iff.1 h
  obtain ⟨m, hm, h⟩ := Option.bind_eq_some_iff.1 h
  exact ⟨ds, hds, m, hm, (Option.some.inj h).symm⟩

/-- The letters of imaginary numbers are in no numeral. -/
theorem read?_eq_none_of_mem (hbase : base ≤ 16) (h : c ∈ cs) (hc : c = 'j' ∨ c = 'J') :
    read? base cs = none := by
  rw [Option.eq_none_iff_forall_ne_some]
  intro n hn
  obtain ⟨ds, hds, m, hm, -⟩ := exists_of_read? hn
  have hletter : c.toNat < 127 ∧ isNarrowBlank c = false ∧ c ≠ '+' ∧ c ≠ '-' ∧ c ≠ '0' ∧
      c ≠ '_' ∧ c.toLower = 'j' ∧ digitValue? c = some 19 := by
    rcases hc with rfl | rfl <;> decide
  obtain ⟨hascii, hblank, hplus, hminus, hzero, hline, hlower, hvalue⟩ := hletter
  have hmark : baseMark? base ≠ some c.toLower := by
    rw [hlower]
    unfold baseMark?
    split <;> decide
  have htrimmed := mem_trimBy_of_mem (mem_toAscii?_of_mem hds h hascii) hblank
  have hmem := mem_dropMark_of_mem (mem_takeSign_of_mem htrimmed hplus hminus) hzero hline hmark
  rcases digitValue?_of_readDigits hm hmem with h | ⟨d, hd, h⟩
  · exact hline h
  · rw [hvalue] at h
    cases h
    omega

end Numeral

namespace Double

open Numeral (toAscii? takeSign)

variable {cs : List Char} {c : Char}

theorem exists_of_read? {d : Double} (h : read? cs = some d) : ∃ ds, toAscii? cs = some ds ∧
    ∃ negative rest, takeSign (trimBy isNarrowBlank ds) = (negative, rest) ∧
      (String.ofList (rest.map Char.toLower) ∈ ["inf", "infinity"] ∧ d = .infinite negative ∨
        String.ofList (rest.map Char.toLower) = "nan" ∧ d = .nan ∨
        ∃ fixed exponent, readFixed? rest = some fixed ∧ readExponent? fixed.rest = some exponent ∧
          d = ofScientific negative fixed.coefficient (fixed.exponent + exponent)) := by
  obtain ⟨ds, hds, h⟩ := Option.bind_eq_some_iff.1 h
  rcases hsign : takeSign (trimBy isNarrowBlank ds) with ⟨negative, rest⟩
  refine ⟨ds, hds, negative, rest, hsign, ?_⟩
  rw [hsign] at h
  dsimp only at h
  split at h
  · rename_i hword
    exact .inl ⟨by simpa using hword, (Option.some.inj h).symm⟩
  · split at h
    · rename_i hword
      exact .inr (.inl ⟨by simpa using hword, (Option.some.inj h).symm⟩)
    · obtain ⟨fixed, hfixed, h⟩ := Option.bind_eq_some_iff.1 h
      obtain ⟨exponent, hexponent, h⟩ := Option.bind_eq_some_iff.1 h
      exact .inr (.inr ⟨fixed, exponent, hfixed, hexponent, (Option.some.inj h).symm⟩)

theorem exists_mem_of_read?_eq_nan (h : read? cs = some .nan) : ∃ c ∈ cs, c.toLower = 'n' := by
  obtain ⟨ds, hds, negative, rest, hrest, h | ⟨hword, -⟩ | ⟨fixed, exponent, -, -, h⟩⟩ :=
    exists_of_read? h
  · cases h.2
  · have hlist := congrArg String.toList hword
    rw [String.toList_ofList] at hlist
    have hn : 'n' ∈ rest.map Char.toLower := by
      rw [hlist]
      decide
    obtain ⟨c, hc, hlower⟩ := mem_map.1 hn
    have hmem : c ∈ (takeSign (trimBy isNarrowBlank ds)).2 := by rwa [hrest]
    have hdigit : ∀ d < 10, (Nat.digitChar d).toLower ≠ 'n' := by decide
    rcases Numeral.mem_of_mem_toAscii? hds
      (mem_of_mem_trimBy (Numeral.mem_of_mem_takeSign hmem)) with h | rfl | ⟨d, hd, rfl⟩
    · exact ⟨c, h, hlower⟩
    · cases hlower
    · exact absurd hlower (hdigit d hd)
  · exact absurd h.symm (ofScientific_ne_nan _ _ _)

theorem mem_rest_of_readFixed? {fixed : Scientific} (h : readFixed? cs = some fixed) (hc : c ∈ cs)
    (hdigit : c.isDigit = false) (hpoint : c ≠ '.') : c ∈ fixed.rest := by
  have hrest := mem_dropWhile_of_mem hc hdigit
  unfold readFixed? at h
  dsimp only at h
  split at h
  · rename_i heq
    rw [heq] at hrest
    dsimp only at h
    split at h
    · cases h
    · cases h
      exact mem_dropWhile_of_mem (mem_of_ne_of_mem hpoint hrest) hdigit
  · dsimp only at h
    split at h
    · cases h
    · cases h
      exact hrest

theorem readExponent?_eq_none_of_mem (hc : c ∈ cs) (hdigit : c.isDigit = false) (hmark : c ≠ 'e')
    (hmark' : c ≠ 'E') (hplus : c ≠ '+') (hminus : c ≠ '-') : readExponent? cs = none := by
  cases cs with
  | nil => cases hc
  | cons d cs =>
    unfold readExponent?
    dsimp only
    split
    · rename_i hd
      have hne : c ≠ d := by
        rintro rfl
        simp [hmark, hmark'] at hd
      have hmem := Numeral.mem_takeSign_of_mem (mem_of_ne_of_mem hne hc) hplus hminus
      have hall : (takeSign cs).2.all Char.isDigit = false := by
        rw [all_eq_false]
        exact ⟨c, hmem, by simp [hdigit]⟩
      rw [hall, Bool.and_false]
      rfl
    · rfl

theorem read?_eq_none_of_mem (h : c ∈ cs) (hc : c = 'j' ∨ c = 'J') : read? cs = none := by
  rw [Option.eq_none_iff_forall_ne_some]
  intro d hd
  obtain ⟨ds, hds, negative, rest, hrest, hd⟩ := exists_of_read? hd
  have hletter : c.toNat < 127 ∧ isNarrowBlank c = false ∧ c ≠ '+' ∧ c ≠ '-' ∧
      c.isDigit = false ∧ c ≠ '.' ∧ c ≠ 'e' ∧ c ≠ 'E' ∧ c.toLower = 'j' := by
    rcases hc with rfl | rfl <;> decide
  obtain ⟨hascii, hblank, hplus, hminus, hdigit, hpoint, hmark, hmark', hlower⟩ := hletter
  have htrimmed := mem_trimBy_of_mem (Numeral.mem_toAscii?_of_mem hds h hascii) hblank
  have hmem : c ∈ rest := by
    have := Numeral.mem_takeSign_of_mem htrimmed hplus hminus
    rwa [hrest] at this
  have hword : ∀ word : String, String.ofList (rest.map Char.toLower) = word → 'j' ∈ word.toList := by
    rintro word rfl
    rw [String.toList_ofList]
    exact hlower ▸ mem_map_of_mem hmem
  rcases hd with ⟨h, -⟩ | ⟨h, -⟩ | ⟨fixed, exponent, hfixed, hexponent, -⟩
  · rcases mem_cons.1 h with h | h
    · exact absurd (hword _ h) (by decide)
    · exact absurd (hword _ (mem_singleton.1 h)) (by decide)
  · exact absurd (hword _ h) (by decide)
  · have hleft := mem_rest_of_readFixed? hfixed hmem hdigit hpoint
    rw [readExponent?_eq_none_of_mem hleft hdigit hmark hmark' hplus hminus] at hexponent
    cases hexponent

end Double

/-! ## Texts of literals -/

namespace Lexer

variable {cs : List Char} {n : Nat}

/-- Characters of a number with a point or an exponent. -/
def isFloatChar (c : Char) : Bool :=
  isDigitOrUnderscore c || ['.', 'e', 'E', '+', '-'].contains c

theorem isFloatChar_of_isDigit {c : Char} (h : isDigit c) : isFloatChar c := by
  simp [isFloatChar, isDigitOrUnderscore, h]

theorem exists_of_exponent {e : Char} (h : exponent (e :: cs) ≠ 0) :
    isFloatChar e ∧ ∃ sign, (∀ d ∈ cs.take sign, isFloatChar d) ∧
      exponent (e :: cs) = 1 + sign + run isDigit (cs.drop sign) := by
  rw [exponent.eq_def] at h ⊢
  dsimp only at h ⊢
  by_cases he : e == 'e' || e == 'E'
  · rw [if_pos he] at h ⊢
    refine ⟨?_, ?_⟩
    · simp only [Bool.or_eq_true, beq_iff_eq] at he
      rcases he with rfl | rfl <;> decide
    · refine ⟨_, ?_, if_neg fun hzero => h (if_pos hzero)⟩
      split
      · split
        · rename_i first rest hfirst
          simp only [Bool.or_eq_true, beq_iff_eq] at hfirst
          refine forall_mem_singleton.2 ?_
          rcases hfirst with rfl | rfl <;> decide
        · simp
      · simp
  · exact absurd (if_neg he) h

theorem isFloatChar_of_mem_exponent {c : Char} (h : c ∈ cs.take (exponent cs)) : isFloatChar c := by
  cases cs with
  | nil => cases h
  | cons e cs =>
    by_cases hzero : exponent (e :: cs) = 0
    · rw [hzero] at h
      cases h
    · obtain ⟨hmark, sign, hsign, hlength⟩ := exists_of_exponent hzero
      rw [hlength, Nat.add_assoc, Nat.add_comm, take_succ_cons, take_add, take_run] at h
      rcases mem_cons.1 h with rfl | h
      · exact hmark
      · rcases mem_append.1 h with h | h
        · exact hsign c h
        · exact isFloatChar_of_isDigit (mem_takeWhile_imp h)

/-- The characters of a number with a point or an exponent. -/
theorem isFloatChar_of_float? {c : Char} (h : float? cs = some n) (hc : c ∈ cs.take n) :
    isFloatChar c := by
  have hwhole : c ∈ cs.takeWhile isDigit → isFloatChar c := fun h =>
    isFloatChar_of_isDigit (mem_takeWhile_imp h)
  unfold float? at h
  dsimp only at h
  split at h
  · rename_i rest hrest
    split at h
    · cases h
    · cases h
      rw [take_add] at hc
      rcases mem_append.1 hc with hc | hc
      · rw [Nat.add_assoc, take_add, take_run, hrest, Nat.add_comm 1, take_succ_cons,
          take_run] at hc
        rcases mem_append.1 hc with hc | hc
        · exact hwhole hc
        · rcases mem_cons.1 hc with rfl | hc
          · decide
          · have hdigit : isDigitOrUnderscore c := mem_takeWhile_imp hc
            simp [isFloatChar, hdigit]
      · exact isFloatChar_of_mem_exponent hc
  · split at h
    · cases h
    · cases h
      rw [take_add, take_run] at hc
      rcases mem_append.1 hc with hc | hc
      · exact hwhole hc
      · exact isFloatChar_of_mem_exponent hc

/-- An imaginary number ends in its letter. -/
theorem exists_of_imag? (h : imag? cs = some n) :
    ∃ front c, cs.take n = front ++ [c] ∧ (c = 'j' ∨ c = 'J') ∧ ∀ d ∈ front, isFloatChar d := by
  have hmarked : ∀ {m : Nat} {c : Char} {rest : List Char}, (∀ d ∈ cs.take m, isFloatChar d) →
      cs.drop m = c :: rest → c == 'j' || c == 'J' →
      ∃ front c, cs.take (m + 1) = front ++ [c] ∧ (c = 'j' ∨ c = 'J') ∧ ∀ d ∈ front, isFloatChar d :=
    fun hfront hdrop hc => ⟨_, _, by rw [take_add, hdrop]; rfl, by simpa using hc, hfront⟩
  unfold imag? at h
  rcases (Option.orElse_eq_some _ _ _).1 h with h | ⟨-, h⟩
  · split at h
    · cases h
    dsimp only at h
    split at h
    · rename_i hdrop
      split at h
      · cases h
        refine hmarked (fun d hd => ?_) hdrop ‹_›
        rw [take_run] at hd
        exact isFloatChar_of_isDigit (mem_takeWhile_imp hd)
      · cases h
    · cases h
  · obtain ⟨m, hfloat, h⟩ := Option.bind_eq_some_iff.1 h
    split at h
    · rename_i hdrop
      split at h
      · cases h
        exact hmarked (fun d hd => isFloatChar_of_float? hfloat hd) hdrop ‹_›
      · cases h
    · cases h

end Lexer

/-! ## Values of literals -/

namespace Literal

variable {text : String} {type : ValueType} {value : Number}

/-- The value of a literal is an integer that was read in a base, or a double. -/
theorem number_cases (h : number text type = .ok value) :
    (∃ base ≤ 16, ∃ ds n, Numeral.read? base ds = some n ∧ value = .int n ∧
      (type ≠ .octal → ds = significant text)) ∨
    ∃ d, Double.read? (significant text) = some d ∧ value = .double d := by
  have hinteger : ∀ {base : Nat} {ds : List Char}, base ≤ 16 → (type ≠ .octal → ds = significant text) →
      integerIn base ds = .ok value → ∃ base ≤ 16, ∃ ds n, Numeral.read? base ds = some n ∧
        value = .int n ∧ (type ≠ .octal → ds = significant text) := by
    intro base ds hbase htype h
    unfold integerIn at h
    split at h
    · rename_i n hn
      cases h
      exact ⟨base, hbase, ds, n, hn, rfl, htype⟩
    · cases h
  have hdouble : doubleOf (significant text) = .ok value →
      ∃ d, Double.read? (significant text) = some d ∧ value = .double d := by
    intro h
    unfold doubleOf at h
    split at h
    · rename_i d hd
      cases h
      exact ⟨d, hd, rfl⟩
    · cases h
  have hok : ∀ {e : Except NumeralFault Number}, e.mapError (Cause.numericLiteral text) = .ok value →
      e = .ok value := by
    intro e he
    cases e with
    | ok v => cases he; rfl
    | error fault => cases he
  unfold number at h
  dsimp only at h
  rw [← significant] at h
  have h := hok h
  split at h
  · exact .inl (hinteger (by decide : 8 ≤ 16) (fun h => absurd rfl h) h)
  · exact .inl (hinteger (by decide : 16 ≤ 16) (fun _ => rfl) h)
  · exact .inr (hdouble h)
  · split at h
    · exact .inl (hinteger (by decide : 2 ≤ 16) (fun _ => rfl) h)
    · split at h
      · rename_i n hn
        cases h
        exact .inl ⟨10, by decide, _, n, (Option.ite_none_left_eq_some.1 hn).2, rfl, fun _ => rfl⟩
      · exact .inr (hdouble h)

theorem kind_of_number {cause : Cause} (h : number text type = .error cause) :
    cause.kind = .evaluation := by
  have hkind : ∀ {e : Except NumeralFault Number},
      e.mapError (Cause.numericLiteral text) = .error cause → cause.kind = .evaluation := by
    intro e he
    cases e with
    | ok value => cases he
    | error fault => cases he; rfl
  exact hkind h

theorem number_ne_nan (h : ∀ c ∈ text.toList, c.toLower ≠ 'n') : number text type ≠ .ok (.double .nan) := by
  intro heq
  rcases number_cases heq with ⟨base, -, ds, m, hm, heq, -⟩ | ⟨d, hd, heq⟩
  · cases heq
  · cases heq
    obtain ⟨c, hc, hlower⟩ := Double.exists_mem_of_read?_eq_nan hd
    exact h c (mem_of_mem_filter hc) hlower

theorem number_ne_ok_of_mem {c : Char} (h : c ∈ text.toList) (hc : c = 'j' ∨ c = 'J')
    (htype : type ≠ .octal) : number text type ≠ .ok value := by
  have hmem : c ∈ significant text := by
    refine mem_filter.2 ⟨h, ?_⟩
    rcases hc with rfl | rfl <;> decide
  intro heq
  rcases number_cases heq with ⟨base, hbase, ds, m, hm, -, hds⟩ | ⟨d, hd, -⟩
  · rw [hds htype, Numeral.read?_eq_none_of_mem hbase hmem hc] at hm
    cases hm
  · rw [Double.read?_eq_none_of_mem hmem hc] at hd
    cases hd

end Literal

theorem Number.toInt_eq_error {value : Number} {fault : ConversionFault}
    (h : value.toInt = .error fault) :
    value = .double .nan ∨ fault = .overflow ∧ ∃ negative, value = .double (.infinite negative) := by
  unfold toInt at h
  split at h
  · cases h
  · cases h
  · cases h
    exact .inr ⟨rfl, _, rfl⟩
  · exact .inl rfl

theorem Number.toDouble_eq_error {value : Number} {fault : ConversionFault}
    (h : value.toDouble = .error fault) :
    fault = .overflow ∧ ∃ n : Int, value = .int n ∧ 2 ^ 1023 ≤ n.natAbs := by
  unfold toDouble at h
  split at h
  · rename_i n
    split at h
    · rename_i hn
      cases h
      exact ⟨rfl, n, rfl, Double.le_of_ofInt_eq_infinite hn⟩
    · cases h
  · cases h

theorem Number.toInt_neg (value : Number) : value.neg.toInt = value.toInt.map (-·) := by
  cases value with
  | int n => rfl
  | double d =>
    cases d with
    | finite negative m e =>
      cases negative with
      | false => rfl
      | true => simp [neg, Double.neg, toInt, Double.truncate, Except.map]
    | infinite negative => rfl
    | nan => rfl

/-! ## Literals that were read -/

namespace Token.Lexed

variable {token : Token}

theorem float (h : token.Lexed) (hkind : token.kind = .floatNumber) :
    ∀ c ∈ token.text.toList, c.toLower ≠ 'n' := by
  obtain ⟨cs, n, hn, htext⟩ := h.exists_of_mem hkind (by simp [Lexer.classes] : (_, Lexer.float?) ∈ _)
  intro c hc hlower
  have hchar := Lexer.isFloatChar_of_float? hn (htext ▸ hc)
  have hletter : c = 'n' ∨ c = 'N' := by
    unfold Char.toLower at hlower
    split at hlower
    · have hval : c.val + 32 = 110 := congrArg Char.val hlower
      exact .inr (Char.ext ((UInt32.add_left_inj 32).1 hval))
    · exact .inl hlower
  rcases hletter with rfl | rfl
  · exact absurd hchar (by decide)
  · exact absurd hchar (by decide)

theorem imaginary (h : token.Lexed) (hkind : token.kind = .imagNumber) :
    ∃ c ∈ token.text.toList, c = 'j' ∨ c = 'J' := by
  obtain ⟨cs, n, hn, htext⟩ := h.exists_of_mem hkind (by simp [Lexer.classes] : (_, Lexer.imag?) ∈ _)
  obtain ⟨front, c, htake, hc, -⟩ := Lexer.exists_of_imag? hn
  rw [htext, htake]
  exact ⟨c, mem_append_right _ (.head _), hc⟩

end Token.Lexed

theorem Form.exists_literal {rule : Rule} {cs : List Tree} (h : Form rule cs)
    (hrule : rule.literalKinds ≠ []) : ∃ id token, cs = [.leaf id token] ∧
      token.kind ∈ rule.literalKinds ∧ token.Lexed := by
  cases h with
  | literal hkind hlexed => exact ⟨_, _, rfl, hkind, hlexed⟩
  | refused h | wrapper h | empty h | collection h | logical h | operation h =>
    cases rule
    all_goals first | exact absurd rfl hrule | cases h
  | qualified h | items h => rcases h with rfl | rfl <;> exact absurd rfl hrule
  | _ => exact absurd rfl hrule

namespace Tree

variable {root t : Tree} {token : Token} {value : Number} {fault : ConversionFault}

/-- The positional value of the digits of an integer literal. -/
def magnitude (t : Tree) : Nat :=
  match t.rule?, t.firstToken? with
  | some rule, some token => Numeral.positional rule.base (digits rule token.text)
  | _, _ => 0

/-- A literal that may be too large to be converted: a float, or an integer of at least `2^1023`. -/
def IsLarge (t : Tree) : Prop :=
  t.isOf .floatLiteral ∨ t.rule?.any Rule.isIntegral ∧ 2 ^ 1023 ≤ t.magnitude

variable (hroot : root.Formed) (ht : t ∈ root.nodes) (hnumber : t.rule?.any Rule.isNumber)
  (htoken : t.firstToken? = some token) (hvalue : number token.text t.natural = .ok value)

include hroot ht hnumber htoken hvalue

/-- The value of a number literal that was read: the value of its digits for an integer literal, or
infinity if it is a large one, and a number for a float. -/
theorem Formed.value_of_literal :
    t.rule?.any Rule.isIntegral ∧ (value = .int t.magnitude ∨
        value = .double (.infinite false) ∧ 2 ^ 1023 ≤ t.magnitude) ∨
      t.isOf .floatLiteral ∧ value ≠ .double .nan := by
  obtain ⟨id, rule, span, cs, rfl⟩ : ∃ id rule span cs, t = node id rule span cs := by
    cases t with
    | leaf => cases isNode_of_mem_nodes ht
    | node id rule span cs => exact ⟨id, rule, span, cs, rfl⟩
  change rule.isNumber at hnumber
  have hrule : rule.literalKinds ≠ [] ∧ rule.isVisited := by
    cases rule
    all_goals first | cases hnumber; done | exact ⟨by decide, rfl⟩
  obtain ⟨i, token', rfl, hkind, hlexed⟩ :=
    (hroot.form_of_isVisited ht hrule.2).exists_literal hrule.1
  obtain rfl : token' = token := Option.some.inj htoken
  have hint : rule.isIntegral → value = .int (node id rule span [.leaf i token']).magnitude ∨
      value = .double (.infinite false) ∧ 2 ^ 1023 ≤ (node id rule span [.leaf i token']).magnitude := by
    intro hintegral
    obtain ⟨hnone, hsome⟩ := hlexed.number_of_integer hintegral hkind id i span
    by_cases hdigits : digits rule token'.text = []
    · obtain ⟨cause, -, herror⟩ := hnone hdigits
      rw [hvalue] at herror
      cases herror
    · have heq := Except.ok.inj (hvalue.symm.trans (hsome hdigits))
      rw [integerValue] at heq
      split at heq
      · rename_i hlong
        obtain ⟨rfl, hlong⟩ := hlong
        refine .inr ⟨heq, ?_⟩
        have hpow : 2 ^ 1023 ≤ 10 ^ Numeral.maxDigits :=
          (Nat.pow_le_pow_left (by decide) _).trans (Nat.pow_le_pow_right (by decide) (by decide))
        exact hpow.trans (hlexed.le_positional_of_long (mem_singleton.1 hkind) hlong)
      · exact .inl heq
  cases rule with
  | integerLiteral | hexLiteral | octLiteral | binLiteral => exact .inl ⟨rfl, hint rfl⟩
  | floatLiteral =>
    refine .inr ⟨rfl, ?_⟩
    rintro rfl
    exact number_ne_nan (hlexed.float (mem_singleton.1 hkind)) hvalue
  | imagLiteral =>
    change number _ .long = _ at hvalue
    obtain ⟨c, hc, hletter⟩ := hlexed.imaginary (mem_singleton.1 hkind)
    exact absurd hvalue (number_ne_ok_of_mem hc hletter (by decide))
  | _ => cases hnumber

theorem Formed.isLarge_of_toInt (h : value.toInt = .error fault) :
    fault = .overflow ∧ t.IsLarge := by
  rcases hroot.value_of_literal ht hnumber htoken hvalue with
    ⟨hintegral, rfl | ⟨rfl, hlarge⟩⟩ | ⟨hfloat, hnan⟩
  · cases h
  · cases h
    exact ⟨rfl, .inr ⟨hintegral, hlarge⟩⟩
  · rcases Number.toInt_eq_error h with rfl | ⟨rfl, -⟩
    · exact absurd rfl hnan
    · exact ⟨rfl, .inl hfloat⟩

theorem Formed.isLarge_of_toDouble (h : value.toDouble = .error fault) :
    fault = .overflow ∧ t.IsLarge := by
  obtain ⟨rfl, n, rfl, hlarge⟩ := Number.toDouble_eq_error h
  refine ⟨rfl, ?_⟩
  rcases hroot.value_of_literal ht hnumber htoken hvalue with
    ⟨hintegral, heq | ⟨heq, -⟩⟩ | ⟨hfloat, -⟩
  · rw [Number.int.inj heq, Int.natAbs_natCast] at hlarge
    exact .inr ⟨hintegral, hlarge⟩
  · cases heq
  · exact .inl hfloat

/-- A literal that cannot be converted is too large, or has too many digits. -/
theorem Formed.isLarge_of_canonical {type : ValueType} (h : canonical value type = .error fault) :
    fault = .overflow ∧ t.IsLarge ∨ fault = .tooManyDigits ∧ value.IsLong := by
  have hmap : ∀ {α β : Type} {e : Except ConversionFault α} {f : α → β},
      e.map f = .error fault → e = .error fault := by
    intro α β e f he
    cases e with
    | ok a => cases he
    | error fault => cases he; rfl
  unfold canonical at h
  split at h
  · exact .inl (hroot.isLarge_of_toDouble ht hnumber htoken hvalue (hmap h))
  · exact .inl (hroot.isLarge_of_toInt ht hnumber htoken hvalue (hmap h))
  · exact .inl (hroot.isLarge_of_toInt ht hnumber htoken hvalue (hmap h))
  · cases hint : value.toInt with
    | error e =>
      rw [hint] at h
      cases h
      exact .inl (hroot.isLarge_of_toInt ht hnumber htoken hvalue hint)
    | ok i =>
      rw [hint] at h
      obtain ⟨rfl, hlong⟩ := Number.numeral_eq_error h
      exact .inr ⟨rfl, i, hint, hlong⟩

end Tree

end QueryScribe
