import QueryScribe.Proofs.DecimalSpelling
import QueryScribe.Proofs.Int64Text

/-!
# Decimals given as text

A text is brought to one canonical text of the decimal that it denotes. What is written for a decimal is
one of its spellings, in each of the ways of placing the point (`Decimal.laysOut_layOut`), so it denotes
the decimal that was read and is its own result. Coefficient and exponent are kept apart: the same number
with more zeros behind it has another text.
-/

namespace QueryScribe

open List

open Decimal Literal

namespace Decimal

open Numeral (positional signs)

variable {d : Char} {ds : List Char}

/-! ## Writing a decimal -/

theorem isDigit_of_mem_toDigits {n : Nat} (h : d ∈ Nat.toDigits 10 n) : Text.isDigit d := by
  have hdigits : ∀ v < 10, Text.isDigit (Nat.digitChar v) := by decide
  obtain ⟨v, hv, rfl⟩ := Numeral.exists_of_mem_toDigits (by decide) h
  exact hdigits v hv

/-- The power that is written for an exponent. -/
def writtenPower (adjusted : Int) : Power where
  mark := 'E'
  sign := if adjusted < 0 then ['-'] else ['+']
  digits := Nat.toDigits 10 adjusted.natAbs
  mark_eq := .inr rfl
  sign_mem := by split <;> decide
  digits_ne := Nat.toDigits_ne_nil
  isDigit := fun _ => isDigit_of_mem_toDigits

theorem value_writtenPower (adjusted : Int) : (writtenPower adjusted).value = adjusted := by
  have hdigits : positional 10 (Nat.toDigits 10 adjusted.natAbs) = adjusted.natAbs :=
    Numeral.positional_toDigits (by decide) (by decide) _
  unfold Power.value writtenPower
  dsimp only
  rw [hdigits]
  split <;> split <;> grind

/-- A text that spells digits times a power of ten, without a sign. -/
def LaysOut (ds : List Char) (exponent : Int) (text : List Char) : Prop :=
  ∃ s : Spelling, s.sign = [] ∧ s.text = text ∧ s.coefficient = positional 10 ds ∧ s.exponent = exponent

section LaysOut

variable (hne : ds ≠ []) (hds : ∀ d ∈ ds, Text.isDigit d)

include hne hds

theorem laysOut_whole (power : Option Power) :
    LaysOut ds ((power.map Power.value).getD 0) (ds ++ (power.map Power.text).getD []) := by
  refine ⟨⟨[], ds, none, power, .head _, by simpa using hne, by simpa using hds⟩, rfl, rfl,
    ?_, ?_⟩
  · simp [Spelling.coefficient]
  · simp [Spelling.exponent]

theorem laysOut_point (k : Nat) (power : Option Power) :
    LaysOut ds ((power.map Power.value).getD 0 - (ds.length - k : Nat))
      (ds.take k ++ '.' :: (ds.drop k ++ (power.map Power.text).getD [])) := by
  refine ⟨⟨[], ds.take k, some (ds.drop k), power, .head _, by simpa using hne,
    by simpa using hds⟩, rfl, rfl, ?_, ?_⟩
  · simp [Spelling.coefficient]
  · simp [Spelling.exponent]

omit hne in
theorem laysOut_zeros (k : Nat) :
    LaysOut ds (-(k + ds.length : Nat)) ('0' :: '.' :: (List.replicate k '0' ++ ds)) := by
  have hzero : Text.isDigit '0' := by decide
  refine ⟨⟨[], ['0'], some (List.replicate k '0' ++ ds), none, .head _, by simp, ?_⟩, rfl,
    by simp [Spelling.text], ?_, ?_⟩
  · intro d hd
    simp only [Option.getD_some, mem_append, mem_singleton, mem_replicate] at hd
    rcases hd with rfl | ⟨-, rfl⟩ | hd
    · exact hzero
    · exact hzero
    · exact hds d hd
  · exact Numeral.positional_replicate_append (k + 1) ds
  · simp [Spelling.exponent]

/-- Digits are laid out as a spelling, in each of the ways of placing the point. -/
theorem laysOut_layOut (exponent : Int) : LaysOut ds exponent (layOut ds exponent) := by
  have hlength : 0 < ds.length := length_pos_iff.2 hne
  unfold layOut
  dsimp only
  split
  · rename_i hplain
    simp only [Bool.and_eq_true, decide_eq_true_eq] at hplain
    split
    · rename_i hzero
      rw [hzero]
      simpa using laysOut_whole hne hds none
    · split
      · -- The point stands among the digits, as many places from the end as the exponent says.
        have hpoint := laysOut_point hne hds (ds.length + exponent).toNat none
        have hexponent : (0 : Int) - (ds.length - (ds.length + exponent).toNat : Nat) = exponent := by
          omega
        simpa [hexponent] using hpoint
      · have hzeros := laysOut_zeros hds (-(ds.length + exponent)).toNat
        have hexponent : -(((-(ds.length + exponent)).toNat + ds.length : Nat) : Int) = exponent := by
          omega
        rwa [hexponent] at hzeros
  · -- The power belongs to the first digit, so the digits behind the point count against it.
    generalize hadjusted : (ds.length : Int) + exponent - 1 = adjusted
    have htext : 'E' :: (if adjusted < 0 then '-' else '+') :: Nat.toDigits 10 adjusted.natAbs =
        (writtenPower adjusted).text := by
      unfold Power.text writtenPower
      split <;> rfl
    rw [htext]
    match ds with
    | [d] =>
      have hwhole := laysOut_whole hne hds (some (writtenPower adjusted))
      obtain rfl : adjusted = exponent := by
        rw [length_singleton] at hadjusted
        omega
      rwa [Option.map_some, Option.getD_some, value_writtenPower] at hwhole
    | d :: e :: ds =>
      have hpoint := laysOut_point hne hds 1 (some (writtenPower adjusted))
      have hexponent : adjusted - ((d :: e :: ds).length - 1 : Nat) = exponent := by omega
      rw [Option.map_some, Option.getD_some, value_writtenPower, hexponent] at hpoint
      exact hpoint

end LaysOut

theorem Spelling.denotes (s : Spelling) : Denotes s.text s.negative s.coefficient s.exponent := by
  have hfilter : s.text.filter (· ≠ '_') = s.text := by
    refine filter_eq_self.2 fun c hc => decide_eq_true ?_
    rintro rfl
    rcases s.mem_text hc with h | h
    · exact absurd h (by decide)
    · exact absurd h (by decide)
  exact ⟨[], s.text, [], s, by simp, nofun, nofun, hfilter, rfl, rfl, rfl⟩

theorem denotes_write (negative : Bool) (coefficient : Nat) (exponent : Int) :
    Denotes (write (finite negative coefficient exponent)).toList negative coefficient exponent := by
  have hdigits : ∀ d ∈ Nat.toDigits 10 coefficient, Text.isDigit d := fun _ => isDigit_of_mem_toDigits
  obtain ⟨s, hsign, htext, hcoefficient, rfl⟩ := laysOut_layOut Nat.toDigits_ne_nil hdigits exponent
  rw [Numeral.positional_toDigits (by decide) (by decide)] at hcoefficient
  have hwrite : (write (finite negative coefficient s.exponent)).toList =
      if negative then '-' :: s.text else s.text := by
    rw [write, String.toList_ofList, htext]
  have hdenotes := s.denotes
  rw [hwrite]
  cases negative with
  | false =>
    have hplain : s.negative = false := by rw [Spelling.negative, hsign]; rfl
    rwa [hplain, hcoefficient] at hdenotes
  | true =>
    let minus : Spelling := { s with sign := ['-'], sign_mem := by decide }
    have hminus : minus.text = '-' :: s.text := by
      rw [Spelling.text, Spelling.text, hsign]
      rfl
    have hdenotes := minus.denotes
    rw [hminus] at hdenotes
    rwa [← hcoefficient]

theorem finite?_eq_some_iff {negative : Bool} {coefficient : Nat} {exponent : Int} {x : Decimal} :
    finite? negative coefficient exponent = some x ↔ finite negative coefficient exponent = x ∧
      exponent + Double.digitCount coefficient - 1 ≤ maxAdjusted ∧ minExponent ≤ exponent := by
  unfold finite?
  split
  · rename_i hrange
    simp only [Bool.and_eq_true, decide_eq_true_eq] at hrange
    simp [hrange]
  · rename_i hrange
    simp only [Bool.and_eq_true, decide_eq_true_eq] at hrange
    exact ⟨nofun, fun h => absurd h.2 hrange⟩

theorem read?_write {text : List Char} {x : Decimal} (h : read? text = some x) :
    read? x.write.toList = some x := by
  rcases cases_of_read? h with rfl | ⟨negative, rfl⟩ | ⟨negative, coefficient, exponent, -, hfinite⟩
  · decide
  · cases negative <;> decide
  · obtain ⟨rfl, -⟩ := finite?_eq_some_iff.1 hfinite
    rw [read?_of_denotes (denotes_write negative coefficient exponent), hfinite]

theorem write_mem_of_not_finite {x : Decimal} (h : x = nan ∨ ∃ negative, x = infinite negative) :
    x.write ∈ ["NaN", "Infinity", "-Infinity"] := by
  rcases h with rfl | ⟨negative, rfl⟩
  · decide
  · cases negative <;> decide

end Decimal

theorem Literal.decimal128_eq_ok_iff {text result : String} : decimal128 text = .ok result ↔
    ∃ x, read? text.toList = some x ∧ x.write = result := by
  unfold decimal128
  cases read? text.toList with
  | none => exact ⟨nofun, fun ⟨_, h, _⟩ => nomatch h⟩
  | some x => simp

/-- The result for a text is its own result. Where the text denotes a finite decimal, the result denotes
the decimal with the same sign, coefficient and exponent, and no other; the other results are those for
infinities and for what is no number. There is a result for each text that denotes a finite decimal, as
far as its exponents are in range. -/
theorem decimal128_keeps_decimal :
    (∀ text result, decimal128 text = .ok result →
      decimal128 result = .ok result ∧
      (∀ negative coefficient exponent, Decimal.Denotes text.toList negative coefficient exponent →
        ∀ negative' coefficient' exponent',
          Decimal.Denotes result.toList negative' coefficient' exponent' ↔
            negative' = negative ∧ coefficient' = coefficient ∧ exponent' = exponent) ∧
      (result ∈ ["NaN", "Infinity", "-Infinity"] ∨
        ∃ negative coefficient exponent, Decimal.Denotes text.toList negative coefficient exponent)) ∧
    ∀ text negative coefficient exponent, Decimal.Denotes text.toList negative coefficient exponent →
      ((∃ result, decimal128 text = .ok result) ↔
        exponent + Double.digitCount coefficient - 1 ≤ maxAdjusted ∧
          minExponent ≤ exponent) := by
  refine ⟨fun text result h => ?_, fun text negative coefficient exponent h => ?_⟩
  · obtain ⟨x, hread, rfl⟩ := decimal128_eq_ok_iff.1 h
    have hagain := read?_write hread
    refine ⟨decimal128_eq_ok_iff.2 ⟨x, hagain, rfl⟩, fun negative coefficient exponent h => ?_, ?_⟩
    · rw [read?_of_denotes h] at hread
      obtain ⟨rfl, -⟩ := finite?_eq_some_iff.1 hread
      refine fun negative' coefficient' exponent' => ⟨fun h' => ?_, ?_⟩
      · rw [read?_of_denotes h'] at hagain
        obtain ⟨heq, -⟩ := finite?_eq_some_iff.1 hagain
        exact finite.inj heq
      · rintro ⟨rfl, rfl, rfl⟩
        exact denotes_write _ _ _
    · rcases cases_of_read? hread with hx | hx | ⟨negative, coefficient, exponent, hx, -⟩
      · exact .inl (write_mem_of_not_finite (.inl hx))
      · exact .inl (write_mem_of_not_finite (.inr hx))
      · exact .inr ⟨negative, coefficient, exponent, hx⟩
  · constructor
    · rintro ⟨result, hresult⟩
      obtain ⟨x, hread, -⟩ := decimal128_eq_ok_iff.1 hresult
      rw [read?_of_denotes h] at hread
      exact (finite?_eq_some_iff.1 hread).2
    · intro hrange
      have hread := (read?_of_denotes h).trans (finite?_eq_some_iff.2 ⟨rfl, hrange⟩)
      exact ⟨_, decimal128_eq_ok_iff.2 ⟨_, hread, rfl⟩⟩

/-- Digits of another script, an underscore and a zero at the end; and an exponent that is out of range. -/
theorem decimal128_keeps_trailing_zero :
    decimal128 " -1_2٣.0e5\n" = .ok "-1.230E+7" ∧
      decimal128 "-1.230E+7" = .ok "-1.230E+7" ∧
      (∀ negative coefficient exponent,
        Decimal.Denotes "-1.230E+7".toList negative coefficient exponent ↔
          negative = true ∧ coefficient = 1230 ∧ exponent = 4) ∧
      ¬ ∃ result, decimal128 "1e1000000000000000000" = .ok result := by
  have hresult : decimal128 " -1_2٣.0e5\n" = .ok "-1.230E+7" := by decide +kernel
  have hdenotes : Decimal.Denotes " -1_2٣.0e5\n".toList true 1230 4 :=
    ⟨[' '], "-1_2٣.0e5".toList, ['\n'],
      ⟨['-'], ['1', '2', '٣'], some ['0'], some ⟨'e', [], ['5'], .inl rfl, by decide, by decide,
        List.all_iff_forall_prop.1 (by decide)⟩, by decide, by decide,
        List.all_iff_forall_prop.1 (by decide)⟩,
      by decide +kernel, List.all_iff_forall_prop.1 (by decide), List.all_iff_forall_prop.1 (by decide),
      by decide +kernel, by decide, by decide +kernel, by decide +kernel⟩
  have hlarge : Decimal.Denotes "1e1000000000000000000".toList false 1 (10 ^ 18) :=
    ⟨[], "1e1000000000000000000".toList, [],
      ⟨[], ['1'], none, some ⟨'e', [], "1000000000000000000".toList, .inl rfl, by decide,
        by decide +kernel, List.all_iff_forall_prop.1 (by decide +kernel)⟩, by decide, by decide,
        List.all_iff_forall_prop.1 (by decide)⟩,
      by decide +kernel, nofun, nofun, by decide +kernel, by decide, by decide +kernel, by decide +kernel⟩
  obtain ⟨hagain, hkeeps, -⟩ := decimal128_keeps_decimal.1 _ _ hresult
  refine ⟨hresult, hagain, hkeeps _ _ _ hdenotes, fun h => ?_⟩
  obtain ⟨hadjusted, -⟩ := (decimal128_keeps_decimal.2 _ _ _ _ hlarge).1 h
  exact absurd hadjusted (by decide +kernel)

end QueryScribe
