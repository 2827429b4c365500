import QueryScribe.Proofs.Positional

/-!
# Object identifiers

An object identifier is written in 24 hexadecimal digits. Its text is read exactly if it has these
digits, in either case, and after them nothing or one line break: the check of the digits looks at
the text without a line break at its end, but the whole text is what is put into lower case.

Lower case keeps the value of each hexadecimal digit (`digit_toLower`), hence the number that the
digits write, and changes nothing that is in lower case already (`objectId_of_lower`).
-/

namespace QueryScribe

open List

open Literal Numeral

/-- The hexadecimal digits in lower case, in the order of their values. -/
def lowerHexDigits : List Char := "0123456789abcdef".toList

/-- The hexadecimal digits in either case. -/
def hexDigits : List Char := lowerHexDigits ++ "ABCDEF".toList

/-- What may follow the digits of an object identifier. -/
def objectIdEndings : List (List Char) := [[], ['\n']]

namespace Literal

variable {c : Char} {cs digits ending : List Char} {text hex : String}

theorem isHex_iff_mem : isHex c ↔ c ∈ hexDigits := by
  have hall : ∀ n < 103, isHex (Char.ofNat n) ↔ Char.ofNat n ∈ hexDigits := by decide
  constructor
  · intro h
    have hle : c ≤ '9' ∨ c ≤ 'f' ∨ c ≤ 'F' := by
      simp only [isHex, Char.isDigit, Bool.or_eq_true, Bool.and_eq_true, decide_eq_true_eq] at h
      rcases h with (h | h) | h
      · exact .inl h.2
      · exact .inr (.inl h.2)
      · exact .inr (.inr h.2)
    have hnat : c.toNat ≤ 57 ∨ c.toNat ≤ 102 ∨ c.toNat ≤ 70 := hle
    rw [← Char.ofNat_toNat c] at h ⊢
    exact (hall c.toNat (by omega)).1 h
  · have hsmall : ∀ d ∈ hexDigits, isHex d := all_iff_forall_prop.1 (by decide)
    exact hsmall c

theorem exists_ending (cs : List Char) : ∃ ending ∈ objectIdEndings, cs = dropBreak cs ++ ending := by
  unfold dropBreak
  split
  case h_1 rest hrest =>
    refine ⟨['\n'], by simp [objectIdEndings], ?_⟩
    rw [← reverse_cons, ← hrest, reverse_reverse]
  case h_2 => exact ⟨[], by simp [objectIdEndings], (append_nil cs).symm⟩

theorem dropBreak_append (hdigits : ∀ c ∈ digits, c ∈ hexDigits) (hending : ending ∈ objectIdEndings) :
    dropBreak (digits ++ ending) = digits := by
  simp only [objectIdEndings, mem_cons, not_mem_nil, or_false] at hending
  rcases hending with rfl | rfl
  · rw [append_nil]
    exact dropBreak_of_notMem fun h => absurd (hdigits '\n' h) (by decide)
  · simp [dropBreak]

theorem objectId_eq_ok_iff : objectId text = .ok hex ↔ ∃ digits, digits.length = 24 ∧
    (∀ c ∈ digits, c ∈ hexDigits) ∧ ∃ ending ∈ objectIdEndings,
      text.toList = digits ++ ending ∧ hex.toList = digits.map Char.toLower ++ ending := by
  have hlower : ∀ ending ∈ objectIdEndings, ending.map Char.toLower = ending := by decide
  unfold objectId
  dsimp only
  constructor
  · intro h
    split at h
    · rename_i hcheck
      cases h
      simp only [Bool.and_eq_true, decide_eq_true_eq, all_eq_true] at hcheck
      obtain ⟨ending, hending, htext⟩ := exists_ending text.toList
      refine ⟨dropBreak text.toList, hcheck.1, fun c hc => isHex_iff_mem.1 (hcheck.2 c hc), ending,
        hending, htext, ?_⟩
      rw [String.toList_ofList, ← hlower ending hending, ← map_append, ← htext]
    · cases h
  · rintro ⟨digits, hlength, hdigits, ending, hending, htext, hhex⟩
    rw [htext, dropBreak_append hdigits hending, map_append, hlower ending hending, ← hhex,
      String.ofList_toList, if_pos]
    simpa [hlength] using fun c hc => isHex_iff_mem.2 (hdigits c hc)

theorem objectId_eq_error (h : ∀ hex, objectId text ≠ .ok hex) : objectId text = .error (.objectId text) := by
  unfold objectId at h ⊢
  dsimp only at h ⊢
  split at h
  · exact absurd rfl (h _)
  · rw [if_neg ‹_›]

theorem digit_toLower : ∀ c ∈ hexDigits, c.toLower ∈ lowerHexDigits ∧
    digit c.toLower = digit c ∧ digit c < 16 :=
  all_iff_forall_prop.1 (by decide)

theorem positional_toLower (h : ∀ c ∈ digits, c ∈ hexDigits) :
    positional 16 (digits.map Char.toLower) = positional 16 digits := by
  have hvalues : (digits.map Char.toLower).map digit = digits.map digit := by
    rw [map_map]
    exact map_congr_left fun c hc => (digit_toLower c (h c hc)).2.1
  rw [positional, hvalues, positional]

theorem objectId_of_lower (hlength : digits.length = 24) (hdigits : ∀ c ∈ digits, c ∈ lowerHexDigits)
    (hending : ending ∈ objectIdEndings) (hhex : hex.toList = digits ++ ending) : objectId hex = .ok hex := by
  have hlower : ∀ c ∈ lowerHexDigits, c.toLower = c := all_iff_forall_prop.1 (by decide)
  refine objectId_eq_ok_iff.2 ⟨digits, hlength, fun c hc => mem_append_left _ (hdigits c hc),
    ending, hending, hhex, ?_⟩
  have hmap : digits.map Char.toLower = digits := by
    calc digits.map Char.toLower = digits.map id :=
          map_congr_left fun c hc => hlower c (hdigits c hc)
      _ = digits := map_id digits
  rw [hmap, hhex]

end Literal

/-- A text has an object identifier exactly if it consists of 24 hexadecimal digits, with one line break
after them or none; all other texts are refused. The identifier ends as the text does, and before this it
has 24 digits of lower case that write the same number of 96 bits. It is its own identifier. -/
theorem objectId_exact (text : String) :
    ((∃ hex, objectId text = .ok hex) ↔ ∃ digits, digits.length = 24 ∧
      (∀ c ∈ digits, c ∈ hexDigits) ∧ ∃ ending ∈ objectIdEndings, text.toList = digits ++ ending) ∧
    ((∃ hex, objectId text = .ok hex) ∨
      objectId text = .error (.objectId text)) ∧
    ∀ hex, objectId text = .ok hex →
      (∃ digits lower, digits.length = 24 ∧ lower.length = 24 ∧ (∀ c ∈ lower, c ∈ lowerHexDigits) ∧
        positional 16 lower = positional 16 digits ∧
        positional 16 digits < 2 ^ 96 ∧ ∃ ending ∈ objectIdEndings,
          text.toList = digits ++ ending ∧ hex.toList = lower ++ ending) ∧
      objectId hex = .ok hex := by
  refine ⟨⟨?_, ?_⟩, ?_, ?_⟩
  · rintro ⟨hex, hhex⟩
    obtain ⟨digits, hlength, hdigits, ending, hending, htext, -⟩ := objectId_eq_ok_iff.1 hhex
    exact ⟨digits, hlength, hdigits, ending, hending, htext⟩
  · rintro ⟨digits, hlength, hdigits, ending, hending, htext⟩
    refine ⟨String.ofList (digits.map Char.toLower ++ ending), objectId_eq_ok_iff.2
      ⟨digits, hlength, hdigits, ending, hending, htext, String.toList_ofList⟩⟩
  · by_cases h : ∃ hex, objectId text = .ok hex
    · exact .inl h
    · exact .inr (objectId_eq_error fun hex hhex => h ⟨hex, hhex⟩)
  · intro hex hhex
    obtain ⟨digits, hlength, hdigits, ending, hending, htext, hlower⟩ :=
      objectId_eq_ok_iff.1 hhex
    have hlength' : (digits.map Char.toLower).length = 24 := by rw [List.length_map, hlength]
    have hmem : ∀ c ∈ digits.map Char.toLower, c ∈ lowerHexDigits := by
      intro c hc
      obtain ⟨d, hd, rfl⟩ := List.mem_map.1 hc
      exact (digit_toLower d (hdigits d hd)).1
    have hlt : positional 16 digits < 2 ^ 96 := by
      calc positional 16 digits < 16 ^ digits.length := positional_lt (by decide) fun c hc => (digit_toLower c (hdigits c hc)).2.2
        _ = 2 ^ 96 := by rw [hlength]; norm_num
    exact ⟨⟨digits, _, hlength, hlength', hmem, positional_toLower hdigits, hlt, ending, hending,
      htext, hlower⟩, objectId_of_lower hlength' hmem hending hlower⟩

/-- A line break after the digits gets into the identifier. -/
theorem objectId_keeps_line_break :
    objectId "0123456789abcdef01234567\n" = .ok "0123456789abcdef01234567\n" ∧
      ¬ ∀ c ∈ "0123456789abcdef01234567\n".toList, c ∈ hexDigits :=
  ⟨by decide +kernel, fun h => absurd (h '\n' (by decide +kernel)) (by decide)⟩

end QueryScribe
