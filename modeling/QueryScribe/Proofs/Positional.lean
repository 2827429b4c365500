import Mathlib.Data.Nat.Digits.Defs
import QueryScribe.Proofs.Values

/-!
# Positional values

Digits of any script that stand in a row, and letters that count as digits, denote the number that
they write in a base (`positional`). Reading brings them to ASCII first and then takes them one by one
(`readDigits_of_values`); nothing else that a numeral may have is among them, so that reading gives their
positional value (`read?_of_digits`), also after a sign and the mark of the base (`read?_of_numeral`).
-/

namespace QueryScribe

open List

open Text

namespace Text

variable {p : Char → Bool} {cs : List Char}

theorem trimBy_append {start core stop : List Char} (hstart : ∀ c ∈ start, p c)
    (hstop : ∀ c ∈ stop, p c) (hhead : ∀ c ∈ core.head?, p c = false)
    (hlast : ∀ c ∈ core.getLast?, p c = false) : trimBy p (start ++ core ++ stop) = core := by
  have hdrop {left right : List Char} (hleft : ∀ c ∈ left, p c)
      (hright : ∀ c ∈ right.head?, p c = false) : (left ++ right).dropWhile p = right := by
    rw [dropWhile_append_of_pos hleft]
    cases right with
    | nil => rfl
    | cons c right => exact dropWhile_cons_of_neg (by simp [hright c rfl])
  unfold trimBy
  cases core with
  | nil =>
    have hall : ∀ c ∈ start ++ stop, p c := fun c hc =>
      (mem_append.1 hc).elim (hstart c) (hstop c)
    rw [append_nil, dropWhile_eq_nil_iff.2 hall]
    rfl
  | cons c core =>
    have hright : ∀ d ∈ (c :: core ++ stop).head?, p d = false := hhead
    rw [append_assoc, hdrop hstart hright, reverse_append, hdrop, reverse_reverse]
    · exact fun c hc => hstop c (mem_reverse.1 hc)
    · rwa [head?_reverse]

theorem trimBy_of_ends (hhead : ∀ c ∈ cs.head?, p c = false)
    (hlast : ∀ c ∈ cs.getLast?, p c = false) : trimBy p cs = cs := by
  have hnothing : ∀ c ∈ ([] : List Char), p c := nofun
  have htrim := trimBy_append hnothing hnothing hhead hlast
  rwa [nil_append, append_nil] at htrim

end Text

namespace Numeral

/-- The value of a digit in any script, or of a letter that counts as a digit. -/
def digit (c : Char) : Nat := ((digit? c).or (digitValue? c)).getD 0

/-- The number that digits write in a base, the first digit being the highest. -/
def positional (base : Nat) (cs : List Char) : Nat := Nat.ofDigits base (cs.map digit).reverse

variable {base : Nat} {c : Char} {cs ds : List Char}

/-! ## Digits in ASCII -/

theorem isBlank_of_isDigit (h : isDigit c) : isBlank c = false := by
  have hapart : ∀ first ∈ zeros, ∀ range ∈ blankRanges,
      range.2 < first ∨ first + 10 ≤ range.1 := by decide
  obtain ⟨d, hd⟩ := Option.isSome_iff_exists.1 h
  obtain ⟨first, hfind, -⟩ := Option.map_eq_some_iff.1 hd
  have hfound := find?_some hfind
  simp only [Bool.and_eq_true, decide_eq_true_eq] at hfound
  rw [isBlank, within, any_eq_false]
  intro range hrange
  have := hapart first (mem_of_find?_eq_some hfind) range hrange
  simp only [Bool.and_eq_true, decide_eq_true_eq]
  omega

theorem exists_ascii_of_isDigit (h : isDigit c) : digit c < 10 ∧ ∃ d : Char,
    (if c.toNat < 127 then some c
      else if isBlank c then some ' '
      else (digit? c).map Nat.digitChar) = some d ∧ digitValue? d = some (digit c) := by
  obtain ⟨v, hv⟩ := Option.isSome_iff_exists.1 h
  have hdigit : digit c = v := by rw [digit, hv]; rfl
  obtain ⟨first, hfind, rfl⟩ := Option.map_eq_some_iff.1 hv
  have hfound := find?_some hfind
  simp only [Bool.and_eq_true, decide_eq_true_eq] at hfound
  refine ⟨by omega, ?_⟩
  rw [hdigit]
  split
  · -- Of all scripts only that of ASCII has digits this small.
    have hsmall : ∀ first ∈ zeros, first < 127 → first = 0x30 := by decide
    obtain rfl := hsmall first (mem_of_find?_eq_some hfind) (by omega)
    have hrange : '0' ≤ c ∧ c ≤ '9' := ⟨hfound.1, Nat.le_of_lt_succ hfound.2⟩
    exact ⟨c, rfl, by rw [digitValue?, if_pos (by simpa using hrange)]; rfl⟩
  · have hascii : ∀ d < 10, digitValue? (Nat.digitChar d) = some d := by decide
    rw [isBlank_of_isDigit h, hv]
    exact ⟨_, rfl, hascii (c.toNat - first) (by omega)⟩

/-- A hexadecimal digit has a value below sixteen, and becomes a character of ASCII with this value. -/
theorem exists_ascii_of_isHexDigit (h : Lexer.isHexDigit c) : digit c < 16 ∧ ∃ d : Char,
    (if c.toNat < 127 then some c
      else if isBlank c then some ' '
      else (digit? c).map Nat.digitChar) = some d ∧ digitValue? d = some (digit c) := by
  by_cases hdecimal : isDigit c
  · obtain ⟨hlt, hascii⟩ := exists_ascii_of_isDigit hdecimal
    exact ⟨by omega, hascii⟩
  · have hletter : 'a'.toNat ≤ c.toNat ∧ c.toNat ≤ 'f'.toNat ∨
        'A'.toNat ≤ c.toNat ∧ c.toNat ≤ 'F'.toNat := by
      simp only [Lexer.isHexDigit, Bool.or_eq_true, Bool.and_eq_true, decide_eq_true_eq] at h
      rcases h with (h | h) | h
      · exact absurd h hdecimal
      · exact .inl h
      · exact .inr h
    have hnone : digit? c = none := by simpa [isDigit] using hdecimal
    have hletters : ∀ n : Nat, (97 ≤ n ∧ n ≤ 102 ∨ 65 ≤ n ∧ n ≤ 70) → n < 127 ∧
        ∃ v < 16, digitValue? (Char.ofNat n) = some v := by
      have hall : ∀ n < 103, (97 ≤ n ∧ n ≤ 102 ∨ 65 ≤ n ∧ n ≤ 70) → n < 127 ∧
          ∃ v < 16, digitValue? (Char.ofNat n) = some v := by decide
      exact fun n hn => hall n (by omega) hn
    obtain ⟨hsmall, v, hv, hvalue⟩ := hletters c.toNat hletter
    rw [Char.ofNat_toNat] at hvalue
    have hdigit : digit c = v := by rw [digit, hnone, hvalue]; rfl
    rw [if_pos hsmall, hdigit]
    exact ⟨hv, c, rfl, hvalue⟩

theorem toAscii?_of_digits (h : ∀ c ∈ cs, Lexer.isHexDigit c) :
    ∃ ds, toAscii? cs = some ds ∧ ds.map digitValue? = (cs.map digit).map some := by
  induction cs with
  | nil => exact ⟨[], rfl, rfl⟩
  | cons c cs ih =>
    obtain ⟨ds, hds, hvalues⟩ := ih fun d hd => h d (mem_cons_of_mem c hd)
    obtain ⟨-, d, hascii, hvalue⟩ := exists_ascii_of_isHexDigit (h c (.head _))
    refine ⟨d :: ds, mapM_eq_some_iff.2 (.cons hascii (mapM_eq_some_iff.1 hds)), ?_⟩
    rw [map_cons, hvalue, hvalues]
    rfl

/-! ## Reading digits -/

variable {v : Nat} {mark : List Char}

theorem toNat_lt_of_digitValue? (h : digitValue? c = some v) : c.toNat < 123 := by
  have hle : c ≤ '9' ∨ c ≤ 'z' ∨ c ≤ 'Z' := by
    unfold digitValue? at h
    simp only [Bool.and_eq_true, decide_eq_true_eq] at h
    split at h
    · rename_i hc
      exact .inl hc.2
    · split at h
      · rename_i hc
        exact .inr (.inl hc.2)
      · split at h
        · rename_i hc
          exact .inr (.inr hc.2)
        · cases h
  have hnat : c.toNat ≤ 57 ∨ c.toNat ≤ 122 ∨ c.toNat ≤ 90 := hle
  omega

theorem plain_of_digitValue? (h : digitValue? c = some v) :
    isNarrowBlank c = false ∧ c ≠ '+' ∧ c ≠ '-' ∧ c ≠ '_' := by
  have hall : ∀ n < 123, (digitValue? (Char.ofNat n)).isSome →
      isNarrowBlank (Char.ofNat n) = false ∧ Char.ofNat n ≠ '+' ∧ Char.ofNat n ≠ '-' ∧
        Char.ofNat n ≠ '_' := by decide
  have hc := hall c.toNat (toNat_lt_of_digitValue? h)
  rw [Char.ofNat_toNat] at hc
  exact hc (by rw [h]; rfl)

theorem baseMark?_ne_of_digitValue? (h : digitValue? c = some v) (hv : v < base) :
    baseMark? base ≠ some c.toLower := by
  have hall : ∀ n < 123, ∀ base ∈ [2, 8, 16],
      (digitValue? (Char.ofNat n)).all fun v => v < base →
        baseMark? base ≠ some (Char.ofNat n).toLower := by decide
  intro hmark
  have hbase : base ∈ [2, 8, 16] := by
    unfold baseMark? at hmark
    split at hmark
    · simp
    · simp
    · simp
    · cases hmark
  have hc := hall c.toNat (toNat_lt_of_digitValue? h) base hbase
  rw [Char.ofNat_toNat, h] at hc
  simp only [Option.all_some, decide_eq_true_eq] at hc
  exact hc hv hmark

theorem readDigits_of_values {vs : List Nat} {value : Nat} {afterDigit : Bool}
    (h : ds.map digitValue? = vs.map some) (hlt : ∀ v ∈ vs, v < base)
    (hne : afterDigit ∨ ds ≠ []) : readDigits base value afterDigit ds =
      some (value * base ^ vs.length + Nat.ofDigits base vs.reverse) := by
  induction ds generalizing vs value afterDigit with
  | nil =>
    obtain rfl : vs = [] := map_eq_nil_iff.1 h.symm
    rw [readDigits, if_pos (hne.resolve_right fun h => h rfl)]
    simp
  | cons d ds ih =>
    cases vs with
    | nil => cases h
    | cons v vs =>
      obtain ⟨hd, hds⟩ := List.cons.inj h
      have hv : v < base := hlt v (.head _)
      rw [readDigits, if_neg (plain_of_digitValue? hd).2.2.2, hd]
      dsimp only
      rw [if_pos hv, ih hds (fun w hw => hlt w (mem_cons_of_mem v hw)) (.inl rfl),
        Nat.ofDigits_reverse_cons, length_cons]
      congr 1
      ring

theorem read?_eq_map {negative : Bool} {rest : List Char} (hascii : toAscii? cs = some ds)
    (htrim : trimBy isNarrowBlank ds = ds) (hsign : takeSign ds = (negative, rest)) :
    read? base cs = (readDigits base 0 false (dropMark base rest)).map fun n : Nat =>
      if negative then -(n : Int) else n := by
  cases hread : readDigits base 0 false (dropMark base rest) with
  | none => simp [read?, hascii, htrim, hsign, hread]
  | some n => simp [read?, hascii, htrim, hsign, hread]

/-- Digits of a base, brought to ASCII: they stay digits of the base, and are read to their positional
value if there are any. -/
theorem exists_ascii_of_digits (h : ∀ c ∈ cs, Lexer.isHexDigit c ∧ digit c < base) :
    ∃ ds, toAscii? cs = some ds ∧ (∀ d ∈ ds, ∃ v < base, digitValue? d = some v) ∧
      readDigits base 0 false ds = if cs = [] then none else some (positional base cs) := by
  obtain ⟨ds, hascii, hvalues⟩ := toAscii?_of_digits fun c hc => (h c hc).1
  have hlt : ∀ v ∈ cs.map digit, v < base := by
    intro v hv
    obtain ⟨c, hc, rfl⟩ := mem_map.1 hv
    exact (h c hc).2
  refine ⟨ds, hascii, fun d hd => ?_, ?_⟩
  · have hmem : digitValue? d ∈ (cs.map digit).map some := hvalues ▸ mem_map_of_mem hd
    obtain ⟨v, hv, hvalue⟩ := mem_map.1 hmem
    exact ⟨v, hlt v hv, hvalue.symm⟩
  · by_cases hne : cs = []
    · subst hne
      obtain rfl : ds = [] := map_eq_nil_iff.1 hvalues
      rfl
    · have hds : ds ≠ [] := by
        rintro rfl
        exact hne (by simpa using hvalues)
      rw [readDigits_of_values hvalues hlt (.inr hds), Nat.zero_mul, Nat.zero_add, if_neg hne]
      rfl

/-! ## Numerals -/

/-- Nothing, or one of the two signs. -/
def signs : List (List Char) := [[], ['+'], ['-']]

theorem forall_of_mem_signs {p : Char → Prop} (hplus : p '+') (hminus : p '-') :
    ∀ sign ∈ signs, ∀ c ∈ sign, p c := by
  simp [signs, hplus, hminus]

/-- Nothing, or a zero and the letter of the base in either case. -/
def marks (base : Nat) : List (List Char) :=
  [] :: (baseMark? base).toList.flatMap fun c => [['0', c], ['0', c.toUpper]]

theorem eq_nil_of_mem_marks (hmark : mark ∈ marks base) (hbase : baseMark? base = none) : mark = [] := by
  rw [marks, hbase] at hmark
  exact mem_singleton.1 hmark

theorem letter_of_mem_marks (hmark : mark ∈ marks base) :
    mark = [] ∨ ∃ c, mark = ['0', c] ∧ baseMark? base = some c.toLower ∧ c.toNat < 127 ∧
      ∃ v, digitValue? c = some v := by
  cases hbase : baseMark? base with
  | none => exact .inl (eq_nil_of_mem_marks hmark hbase)
  | some letter =>
    have hletter : letter = 'b' ∨ letter = 'o' ∨ letter = 'x' := by
      unfold baseMark? at hbase
      split at hbase
      all_goals cases hbase
      all_goals simp
    have hcases : ∀ l ∈ ['b', 'o', 'x'], ([l, l.toUpper].all fun c => c.toLower = l ∧ c.toNat < 127 ∧
        (digitValue? c).isSome) := all_iff_forall_prop.1 (by decide)
    rw [marks, hbase] at hmark
    simp only [Option.toList_some, flatMap_cons, flatMap_nil, append_nil,
      mem_cons, not_mem_nil, or_false] at hmark
    obtain rfl | ⟨c, hc, rfl⟩ : mark = [] ∨ ∃ c ∈ [letter, letter.toUpper], mark = ['0', c] := by
      simpa using hmark
    · exact .inl rfl
    · obtain ⟨hlower, hascii, hvalue⟩ :=
        all_iff_forall_prop.1 (hcases letter (by simpa using hletter)) c hc
      exact .inr ⟨c, rfl, by rw [hlower], hascii, Option.isSome_iff_exists.1 hvalue⟩

theorem toAscii?_append {front : List Char} (hfront : ∀ c ∈ front, c.toNat < 127)
    (h : toAscii? cs = some ds) : toAscii? (front ++ cs) = some (front ++ ds) := by
  induction front with
  | nil => exact h
  | cons c front ih =>
    obtain ⟨hc, hfront⟩ := forall_mem_cons.1 hfront
    exact mapM_eq_some_iff.2 (.cons (if_pos hc) (mapM_eq_some_iff.1 (ih hfront)))

theorem dropMark_append (hmark : mark ∈ marks base) (h : ∀ d ∈ ds, ∃ v < base, digitValue? d = some v) :
    dropMark base (mark ++ ds) = ds := by
  rcases letter_of_mem_marks hmark with rfl | ⟨c, rfl, hbase, -⟩
  · rw [nil_append]
    unfold dropMark
    split
    · rename_i c rest
      obtain ⟨v, hv, hvalue⟩ := h c (by simp)
      exact if_neg (baseMark?_ne_of_digitValue? hvalue hv)
    · rfl
  · rw [cons_append, singleton_append, dropMark, if_pos hbase]
    -- What follows the mark is a digit, so no underscore is dropped with it.
    rintro rest rfl
    obtain ⟨v, -, hvalue⟩ := h '_' (.head _)
    cases hvalue

theorem takeSign_append {sign : List Char} (hsign : sign ∈ signs)
    (hhead : ∀ d ∈ ds.head?, d ≠ '+' ∧ d ≠ '-') :
    takeSign (sign ++ ds) = (decide (sign = ['-']), ds) := by
  simp only [signs, mem_cons, not_mem_nil, or_false] at hsign
  rcases hsign with rfl | rfl | rfl
  · rw [nil_append]
    unfold takeSign
    split
    · exact absurd rfl (hhead '+' rfl).1
    · exact absurd rfl (hhead '-' rfl).2
    · rfl
  · rfl
  · rfl

/-- Digits are read as the number that they write in the base, with its mark before them or
without, and under their sign. Without digits there is nothing to read. -/
theorem read?_of_numeral {sign : List Char} (hsign : sign ∈ signs) (hmark : mark ∈ marks base)
    (h : ∀ c ∈ cs, Lexer.isHexDigit c ∧ digit c < base) :
    read? base (sign ++ (mark ++ cs)) =
      if cs = [] then none
      else some (if sign = ['-'] then -(positional base cs : Int) else positional base cs) := by
  obtain ⟨ds, hascii, hvalues, hread⟩ := exists_ascii_of_digits h
  -- Of what the numeral has in ASCII, all but the sign counts as a digit of a large base.
  have hmarked : (∀ c ∈ mark, c.toNat < 127) ∧ ∀ d ∈ mark ++ ds, ∃ v, digitValue? d = some v := by
    have hdigits : ∀ d ∈ ds, ∃ v, digitValue? d = some v := fun d hd =>
      (hvalues d hd).imp fun _ h => h.2
    rcases letter_of_mem_marks hmark with rfl | ⟨c, rfl, -, hsmall, hvalue⟩
    · exact ⟨nofun, hdigits⟩
    · exact ⟨forall_mem_cons.2 ⟨by decide, forall_mem_singleton.2 hsmall⟩,
        forall_mem_cons.2 ⟨⟨0, rfl⟩, forall_mem_cons.2 ⟨hvalue, hdigits⟩⟩⟩
  have hhead : ∀ d ∈ (mark ++ ds).head?, d ≠ '+' ∧ d ≠ '-' := by
    intro d hd
    obtain ⟨v, hv⟩ := hmarked.2 d (mem_of_head? hd)
    exact ⟨(plain_of_digitValue? hv).2.1, (plain_of_digitValue? hv).2.2.1⟩
  have hsigns : ∀ c ∈ sign, c.toNat < 127 ∧ isNarrowBlank c = false :=
    forall_of_mem_signs (by decide) (by decide) sign hsign
  have hplain : ∀ d ∈ sign ++ (mark ++ ds), isNarrowBlank d = false := by
    intro d hd
    rcases mem_append.1 hd with hd | hd
    · exact (hsigns d hd).2
    · obtain ⟨v, hv⟩ := hmarked.2 d hd
      exact (plain_of_digitValue? hv).1
  rw [read?_eq_map (toAscii?_append (fun c hc => (hsigns c hc).1) (toAscii?_append hmarked.1 hascii))
      (trimBy_of_ends (fun d hd => hplain d (mem_of_head? hd))
        fun d hd => hplain d (mem_of_getLast? hd))
      (takeSign_append hsign hhead),
    dropMark_append hmark hvalues, hread, apply_ite (Option.map _), Option.map_some]
  simp only [decide_eq_true_eq, Option.map_none]

theorem read?_of_digits (hne : cs ≠ []) (h : ∀ c ∈ cs, Lexer.isHexDigit c ∧ digit c < base) :
    read? base cs = some (positional base cs : Int) :=
  (read?_of_numeral ((.head _) : [] ∈ signs) ((.head _) : [] ∈ marks base) h).trans
    (if_neg hne)

/-! ## Decimals as doubles -/

theorem isDigit_of_digitValue? {d : Char} {v : Nat} (h : digitValue? d = some v) (hv : v < 10) :
    d.isDigit ∧ d.toNat - '0'.toNat = v := by
  have hall : ∀ n < 123, ∀ v < 10, digitValue? (Char.ofNat n) = some v →
      (Char.ofNat n).isDigit ∧ (Char.ofNat n).toNat - '0'.toNat = v := by decide
  have hd := hall d.toNat (toNat_lt_of_digitValue? h) v hv
  rw [Char.ofNat_toNat] at hd
  exact hd h

theorem positional_lt {base : Nat} {cs : List Char} (hbase : 1 < base)
    (h : ∀ c ∈ cs, digit c < base) : positional base cs < base ^ cs.length := by
  have hlt := Nat.ofDigits_lt_base_pow_length (b := base) (l := (cs.map digit).reverse) hbase
    fun d hd => by
      obtain ⟨c, hc, rfl⟩ := mem_map.1 (mem_reverse.1 hd)
      exact h c hc
  rwa [length_reverse, length_map] at hlt

theorem positional_cons (base : Nat) (c : Char) (cs : List Char) :
    positional base (c :: cs) = digit c * base ^ cs.length + positional base cs := by
  rw [positional, positional, map_cons, Nat.ofDigits_reverse_cons, length_map]
  ring

theorem digitsValue_of_values {ds : List Char} {vs : List Nat} (value : Nat)
    (h : ds.map digitValue? = vs.map some) (hlt : ∀ v ∈ vs, v < 10) :
    Double.digitsValue value ds = value * 10 ^ vs.length + Nat.ofDigits 10 vs.reverse := by
  induction ds generalizing vs value with
  | nil =>
    obtain rfl : vs = [] := map_eq_nil_iff.1 h.symm
    change value = value * 10 ^ 0 + 0
    omega
  | cons d ds ih =>
    cases vs with
    | nil => cases h
    | cons v vs =>
      obtain ⟨hd, hds⟩ := List.cons.inj h
      have hvalue := (isDigit_of_digitValue? hd (hlt v (.head _))).2
      change Double.digitsValue (value * 10 + (d.toNat - '0'.toNat)) ds = _
      rw [hvalue, ih _ hds fun w hw => hlt w (mem_cons_of_mem v hw), Nat.ofDigits_reverse_cons,
        length_cons]
      ring

/-- Digits of any script are a double as well. -/
theorem double_of_digits (hne : cs ≠ []) (h : ∀ c ∈ cs, isDigit c) :
    Double.read? cs = some (Double.ofScientific false (positional 10 cs) 0) := by
  obtain ⟨ds, hascii, hvalues⟩ := toAscii?_of_digits fun c hc => by simp [Lexer.isHexDigit, h c hc]
  have hlt : ∀ v ∈ cs.map digit, v < 10 :=
    forall_mem_map.2 fun c hc => (exists_ascii_of_isDigit (h c hc)).1
  have hdigits : ∀ d ∈ ds, d.isDigit := by
    intro d hd
    obtain ⟨v, hv, hvalue⟩ := mem_map.1 (hvalues ▸ mem_map_of_mem hd : digitValue? d ∈ _)
    exact (isDigit_of_digitValue? hvalue.symm (hlt v hv)).1
  have hplain : ∀ d ∈ ds, isNarrowBlank d = false ∧ d ≠ '+' ∧ d ≠ '-' := by
    intro d hd
    obtain ⟨v, -, hvalue⟩ := mem_map.1 (hvalues ▸ mem_map_of_mem hd : digitValue? d ∈ _)
    exact ⟨(plain_of_digitValue? hvalue.symm).1, (plain_of_digitValue? hvalue.symm).2.1,
      (plain_of_digitValue? hvalue.symm).2.2.1⟩
  have htrim : trimBy isNarrowBlank ds = ds :=
    trimBy_of_ends (fun d hd => (hplain d (mem_of_head? hd)).1)
      fun d hd => (hplain d (mem_of_getLast? hd)).1
  have hsign : takeSign ds = (false, ds) :=
    takeSign_append ((.head _) : [] ∈ signs) fun d hd => (hplain d (mem_of_head? hd)).2
  have hword : ∀ word : String, word.toList.all (fun c => !c.isDigit) →
      String.ofList (ds.map Char.toLower) ≠ word := by
    rintro word hword rfl
    obtain ⟨d, rest, rfl⟩ : ∃ d rest, ds = d :: rest := by
      cases ds with
      | nil => exact absurd (map_eq_nil_iff.1 (map_eq_nil_iff.1 hvalues.symm)) hne
      | cons d rest => exact ⟨d, rest, rfl⟩
    have hd := hdigits d (.head _)
    have hlower : d.toLower = d := by
      have hall : ∀ n < 58, (Char.ofNat n).toLower = Char.ofNat n := by decide
      have hsmall : d.toNat < 58 := by
        have := (Bool.and_eq_true_iff.1 hd).2
        exact Nat.lt_succ_of_le (by simpa [UInt32.le_iff_toNat_le] using this)
      have hd' := hall d.toNat hsmall
      rwa [Char.ofNat_toNat] at hd'
    have := all_eq_true.1 hword d (by rw [String.toList_ofList, map_cons, hlower]; exact .head _)
    rw [hd] at this
    cases this
  have hfixed : Double.readFixed? ds = some ⟨positional 10 cs, 0, []⟩ := by
    have htake : ds.takeWhile Char.isDigit = ds := takeWhile_eq_self_iff.2 hdigits
    have hdrop : ds.dropWhile Char.isDigit = [] := dropWhile_eq_nil_iff.2 hdigits
    have hds : ds.isEmpty = false := by
      rw [isEmpty_eq_false_iff]
      rintro rfl
      exact hne (map_eq_nil_iff.1 (map_eq_nil_iff.1 hvalues.symm))
    have hvalue := digitsValue_of_values 0 hvalues hlt
    rw [Nat.zero_mul, Nat.zero_add] at hvalue
    simp [Double.readFixed?, htake, hdrop, hds, hvalue, positional]
  have hinf := hword "inf" (by decide)
  have hinfinity := hword "infinity" (by decide)
  have hnan := hword "nan" (by decide)
  simp [Double.read?, hascii, htrim, hsign, hinf, hinfinity, hnan, hfixed, Double.readExponent?]

/-- A decimal with that many digits is beyond all doubles. -/
theorem double_of_long {c : Char} (hc : digit c ≠ 0) (h : ∀ d ∈ c :: cs, isDigit d)
    (hlong : 400 ≤ cs.length) : Double.read? (c :: cs) = some (.infinite false) := by
  have hpow : 10 ^ cs.length ≤ positional 10 (c :: cs) := by
    rw [positional_cons]
    exact (Nat.le_mul_of_pos_left _ (Nat.pos_of_ne_zero hc)).trans (Nat.le_add_right _ _)
  have hpos : positional 10 (c :: cs) ≠ 0 := (Nat.lt_of_lt_of_le (by positivity) hpow).ne'
  have hcount : cs.length < Double.digitCount (positional 10 (c :: cs)) := by
    by_contra hle
    have hlt := (Nat.length_toDigits_le_iff (by decide) (by omega)).1 (not_lt.1 hle)
    omega
  rw [double_of_digits (cons_ne_nil c cs) h, Double.ofScientific, if_neg hpos]
  dsimp only
  rw [if_pos (by omega)]

end Numeral

end QueryScribe
