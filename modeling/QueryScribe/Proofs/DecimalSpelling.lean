import QueryScribe.Proofs.IntegerTexts

/-!
# How decimals are spelled

A finite decimal is spelled with an optional sign, digits of any script around an optional point, and an
optional power of ten (`Decimal.Spelling`). Its coefficient is the number that all digits before the power
write, so zeros at the end count, and its exponent is the power less the number of digits after the point.
A text denotes it if it is such a spelling with underscores anywhere, between blanks (`Decimal.Denotes`).

These are the texts that are read as finite decimals. A text that denotes one is read as it, unless its
exponents are out of range (`Decimal.read?_of_denotes`), and every other text that is read stands for an
infinity or for what is no number (`Decimal.cases_of_read?`). In between stands the text in ASCII, in which
digits of other scripts are replaced and nothing else (`Decimal.of_ascii?_eq_some`).
-/

namespace QueryScribe

open List

open Double Text

/-! ## Blanks around a text -/

namespace Text

theorem trim_of_filter {text before core after : List Char} (htext : text = before ++ core ++ after)
    (hbefore : ∀ c ∈ before, isBlank c) (hafter : ∀ c ∈ after, isBlank c)
    (hcore : ∀ c ∈ core.filter (· ≠ '_'), isBlank c = false) : trim text = core := by
  have hplain : ∀ c ∈ core, isBlank c = false := by
    intro c hc
    by_cases hline : c = '_'
    · rw [hline]
      decide
    · exact hcore c (mem_filter.2 ⟨hc, decide_eq_true hline⟩)
  rw [htext]
  exact trimBy_append hbefore hafter (fun c hc => hplain c (mem_of_head? hc))
    fun c hc => hplain c (mem_of_getLast? hc)

theorem exists_of_trim (text : List Char) : ∃ before after,
    text = before ++ trim text ++ after ∧ (∀ c ∈ before, isBlank c) ∧ ∀ c ∈ after, isBlank c := by
  refine ⟨text.takeWhile isBlank, ((text.dropWhile isBlank).reverse.takeWhile isBlank).reverse, ?_,
    fun c hc => mem_takeWhile_imp hc, fun c hc => mem_takeWhile_imp (mem_reverse.1 hc)⟩
  rw [trim, trimBy, append_assoc, ← reverse_append, takeWhile_append_dropWhile,
    reverse_reverse, takeWhile_append_dropWhile]

end Text

namespace Decimal

open Numeral (digit positional signs forall_of_mem_signs)

variable {c d : Char} {cs ds : List Char}

/-! ## Digits in ASCII -/

/-- A character in ASCII, if it is there or is a digit. -/
def ascii? (c : Char) : Option Char :=
  if c.toNat = 0 then none
  else if c.toNat ≤ 127 then some c
  else (digit? c).map Nat.digitChar

/-- A character, or the digit of ASCII that it stands for. -/
def ascii (c : Char) : Char := if c.toNat ≤ 127 then c else Nat.digitChar (digit c)

theorem isDigit_iff_toNat : c.isDigit ↔ 48 ≤ c.toNat ∧ c.toNat ≤ 57 := by
  simp [Char.isDigit, UInt32.le_iff_toNat_le]

theorem toNat_digitChar : ∀ v < 10, (Nat.digitChar v).toNat = 48 + v := by decide

theorem ascii_of_isDigit (h : Text.isDigit c) :
    ascii? c = some (ascii c) ∧ (ascii c).isDigit ∧ (ascii c).toNat - '0'.toNat = digit c := by
  obtain ⟨v, hv⟩ := Option.isSome_iff_exists.1 h
  have hdigit : digit c = v := by rw [digit, hv]; rfl
  obtain ⟨first, hfind, hfirst⟩ := Option.map_eq_some_iff.1 hv
  have hfound := find?_some hfind
  simp only [Bool.and_eq_true, decide_eq_true_eq] at hfound
  rw [isDigit_iff_toNat]
  unfold ascii? ascii
  by_cases hsmall : c.toNat ≤ 127
  · -- Of all scripts only that of ASCII has digits this small.
    have hzeros : ∀ first ∈ zeros, first ≤ 127 → first = 48 := by decide
    have hzero := hzeros first (mem_of_find?_eq_some hfind) (by omega)
    rw [if_pos hsmall, if_pos hsmall, if_neg (by omega)]
    refine ⟨rfl, ⟨by omega, by omega⟩, ?_⟩
    rw [hdigit, ← hfirst, hzero]
    rfl
  · have htoNat := toNat_digitChar v (by omega)
    rw [if_neg hsmall, if_neg hsmall, if_neg (by omega), hv, hdigit]
    refine ⟨rfl, by omega, ?_⟩
    rw [htoNat]
    exact Nat.add_sub_cancel_left 48 v

theorem of_ascii?_eq_some (h : ascii? c = some d) :
    d = ascii c ∧ (d.isDigit → Text.isDigit c) ∧ (d.isDigit = false → c = d) := by
  unfold ascii? at h
  split at h
  · cases h
  · split at h
    · rename_i hsmall
      obtain rfl := Option.some.inj h
      refine ⟨(if_pos hsmall).symm, fun hd => ?_, fun _ => rfl⟩
      have hdigits : ∀ n < 58, 48 ≤ n → Text.isDigit (Char.ofNat n) := by decide
      obtain ⟨hlow, hhigh⟩ := isDigit_iff_toNat.1 hd
      simpa using hdigits c.toNat (by omega) hlow
    · rename_i hlarge
      obtain ⟨v, hv, rfl⟩ := Option.map_eq_some_iff.1 h
      have hdigit : digit c = v := by rw [digit, hv]; rfl
      have hisDigit : Text.isDigit c := by rw [Text.isDigit, hv]; rfl
      have hascii : ascii c = Nat.digitChar v := by rw [ascii, if_neg hlarge, hdigit]
      refine ⟨hascii.symm, fun _ => hisDigit, fun hd => ?_⟩
      rw [← hascii, (ascii_of_isDigit hisDigit).2.1] at hd
      cases hd

theorem digitsValue_map_ascii (h : ∀ c ∈ cs, Text.isDigit c) :
    digitsValue 0 (cs.map ascii) = positional 10 cs := by
  have hfold (value : Nat) (ds : List Char) : digitsValue value ds =
      ds.foldl (fun n c => n * 10 + (c.toNat - '0'.toNat)) value := by
    induction ds generalizing value with
    | nil => rfl
    | cons d ds ih => exact ih _
  rw [hfold]
  induction cs using List.reverseRecOn with
  | nil => rfl
  | append_singleton cs c ih =>
    obtain ⟨hcs, hc⟩ := forall_mem_append.1 h
    have hvalue := (ascii_of_isDigit (hc c (.head _))).2.2
    rw [map_append, foldl_append, ih hcs, Numeral.positional_concat, ← hvalue]
    rfl

/-! ## Spellings -/

/-- A power of ten as it is spelled: a mark, an optional sign, and digits. -/
structure Power where
  mark : Char
  sign : List Char
  digits : List Char
  mark_eq : mark = 'e' ∨ mark = 'E'
  sign_mem : sign ∈ signs
  digits_ne : digits ≠ []
  isDigit : ∀ d ∈ digits, Text.isDigit d

namespace Power

/-- The text of a power. -/
def text (p : Power) : List Char := p.mark :: (p.sign ++ p.digits)

/-- The power of ten. -/
def value (p : Power) : Int :=
  if p.sign = ['-'] then -(positional 10 p.digits : Int) else positional 10 p.digits

end Power

/-- A finite decimal as it is spelled: an optional sign, digits with an optional point among them, at
least one, and an optional power of ten. -/
structure Spelling where
  sign : List Char
  whole : List Char
  /-- What stands after the point, if there is one. -/
  fraction : Option (List Char)
  power : Option Power
  sign_mem : sign ∈ signs
  digits_ne : whole ++ fraction.getD [] ≠ []
  isDigit : ∀ d ∈ whole ++ fraction.getD [], Text.isDigit d

namespace Spelling

/-- The text of a spelling. -/
def text (s : Spelling) : List Char :=
  s.sign ++ (s.whole ++ ((s.fraction.map ('.' :: ·)).getD [] ++ (s.power.map Power.text).getD []))

/-- Whether the decimal has a minus, which a zero may have too. -/
def negative (s : Spelling) : Bool := s.sign = ['-']

/-- The number that all digits write. -/
def coefficient (s : Spelling) : Nat := positional 10 (s.whole ++ s.fraction.getD [])

/-- The power of ten of the last digit. -/
def exponent (s : Spelling) : Int :=
  (s.power.map Power.value).getD 0 - (s.fraction.getD []).length

end Spelling

/-- A text denotes a finite decimal if it is a spelling of it with underscores anywhere, between
blanks. -/
def Denotes (text : List Char) (negative : Bool) (coefficient : Nat) (exponent : Int) : Prop :=
  ∃ (before core after : List Char) (s : Spelling), text = before ++ core ++ after ∧
    (∀ c ∈ before, isBlank c) ∧ (∀ c ∈ after, isBlank c) ∧
    core.filter (· ≠ '_') = s.text ∧ s.negative = negative ∧ s.coefficient = coefficient ∧
    s.exponent = exponent

theorem Spelling.mem_text {s : Spelling} (h : c ∈ s.text) :
    Text.isDigit c ∨ c ∈ ['+', '-', '.', 'e', 'E'] := by
  have hsigns : ∀ sign ∈ signs, ∀ c ∈ sign, c ∈ ['+', '-', '.', 'e', 'E'] :=
    forall_of_mem_signs (by decide) (by decide)
  obtain ⟨sign, whole, fraction, power, hsign, _, hdigits⟩ := s
  simp only [text, mem_append] at h
  rcases h with h | h | h | h
  · exact .inr (hsigns _ hsign c h)
  · exact .inl (hdigits c (mem_append_left _ h))
  · cases fraction with
    | none => cases h
    | some fraction =>
      rcases mem_cons.1 h with rfl | h
      · exact .inr (by decide)
      · exact .inl (hdigits c (mem_append_right _ h))
  · cases power with
    | none => cases h
    | some p =>
      rcases mem_cons.1 h with h | h
      · rcases p.mark_eq with hmark | hmark
        · exact .inr (by rw [h, hmark]; decide)
        · exact .inr (by rw [h, hmark]; decide)
      · rcases mem_append.1 h with h | h
        · exact .inr (hsigns _ p.sign_mem c h)
        · exact .inl (p.isDigit c h)

/-! ## Reading a spelling -/

theorem ascii_of_mem : ∀ c ∈ ['+', '-', '.', 'e', 'E'],
    ascii? c = some c ∧ ascii c = c ∧ isBlank c = false ∧ c.isDigit = false :=
  all_iff_forall_prop.1 (by decide)

theorem map_ascii_sign {sign : List Char} (h : sign ∈ signs) : sign.map ascii = sign := by
  revert sign
  decide

theorem span_isDigit (ds tail : List Char) (hds : ∀ c ∈ ds, c.isDigit)
    (htail : ∀ c ∈ tail.head?, c.isDigit = false) :
    (ds ++ tail).takeWhile Char.isDigit = ds ∧ (ds ++ tail).dropWhile Char.isDigit = tail := by
  rw [takeWhile_append_of_pos hds, dropWhile_append_of_pos hds]
  cases tail with
  | nil => exact ⟨append_nil _, rfl⟩
  | cons c tail =>
    have hc := htail c rfl
    rw [takeWhile_cons_of_neg (by simp [hc]), dropWhile_cons_of_neg (by simp [hc])]
    exact ⟨append_nil _, rfl⟩

/-- Digits, a point and digits are read up to what is neither. -/
theorem readFixed?_append {whole rest : List Char} {fraction : Option (List Char)}
    (hne : whole ++ fraction.getD [] ≠ []) (hwhole : ∀ c ∈ whole, c.isDigit)
    (hfraction : ∀ c ∈ fraction.getD [], c.isDigit)
    (hrest : ∀ c ∈ rest.head?, c.isDigit = false ∧ c ≠ '.') :
    readFixed? (whole ++ ((fraction.map ('.' :: ·)).getD [] ++ rest)) =
      some ⟨digitsValue 0 (whole ++ fraction.getD []), -((fraction.getD []).length : Int), rest⟩ := by
  unfold readFixed?
  cases fraction with
  | none =>
    obtain ⟨htake, hdrop⟩ := span_isDigit whole rest hwhole fun c hc => (hrest c hc).1
    have hnonempty : (whole.isEmpty && ([] : List Char).isEmpty) = false := by
      simpa using hne
    simp only [Option.map_none, Option.getD_none, nil_append, htake, hdrop]
    split
    · exact absurd rfl (hrest '.' rfl).2
    · rw [hnonempty]
      rfl
  | some fraction =>
    obtain ⟨htake, hdrop⟩ := span_isDigit whole ('.' :: (fraction ++ rest)) hwhole
      (by rintro c hc; cases hc; decide)
    obtain ⟨htake', hdrop'⟩ := span_isDigit fraction rest hfraction fun c hc => (hrest c hc).1
    have hnonempty : (whole.isEmpty && fraction.isEmpty) = false := by
      rw [Bool.eq_false_iff, Ne, Bool.and_eq_true, List.isEmpty_iff, List.isEmpty_iff]
      rintro ⟨rfl, rfl⟩
      exact hne rfl
    simp only [Option.map_some, Option.getD_some, cons_append, htake, hdrop, htake', hdrop']
    rw [hnonempty]
    rfl

theorem readExponent?_text (p : Power) : readExponent? (p.text.map ascii) = some p.value := by
  have hmark : ascii p.mark = p.mark ∧ (p.mark = 'e' || p.mark = 'E') := by
    rcases p.mark_eq with h | h <;> rw [h] <;> decide
  have hdigits : ∀ d ∈ p.digits.map ascii, d.isDigit :=
    forall_mem_map.2 fun d hd => (ascii_of_isDigit (p.isDigit d hd)).2.1
  have hsign : Numeral.takeSign (p.sign ++ p.digits.map ascii) =
      (decide (p.sign = ['-']), p.digits.map ascii) := by
    refine Numeral.takeSign_append p.sign_mem fun d hd => ?_
    have hd := hdigits d (mem_of_head? hd)
    constructor
    · rintro rfl
      exact absurd hd (by decide)
    · rintro rfl
      exact absurd hd (by decide)
  have hall : (!(p.digits.map ascii).isEmpty && (p.digits.map ascii).all Char.isDigit) := by
    rw [all_eq_true.2 hdigits]
    simp [p.digits_ne]
  rw [Power.text, map_cons, map_append, map_ascii_sign p.sign_mem, hmark.1]
  unfold readExponent?
  dsimp only
  rw [if_pos hmark.2, hsign]
  dsimp only
  rw [if_pos hall, digitsValue_map_ascii p.isDigit]
  simp [Power.value]

namespace Spelling

variable (s : Spelling)

/-- The number after the sign starts with a digit or with the point, so it is no word. -/
theorem exists_head (rest : List Char) : ∃ d tail,
    (s.whole ++ ((s.fraction.map ('.' :: ·)).getD [] ++ rest)).map ascii = d :: tail ∧
      (d.isDigit ∨ d = '.') := by
  cases hwhole : s.whole with
  | cons c whole =>
    have hc := s.isDigit c (by rw [hwhole]; exact mem_append_left _ (.head _))
    exact ⟨_, _, rfl, .inl (ascii_of_isDigit hc).2.1⟩
  | nil =>
    cases hfraction : s.fraction with
    | none => exact absurd (by rw [hwhole, hfraction]; rfl) s.digits_ne
    | some fraction => exact ⟨'.', _, rfl, .inr rfl⟩

theorem readExponent?_power :
    readExponent? (((s.power.map Power.text).getD []).map ascii) =
      some ((s.power.map Power.value).getD 0) := by
  cases s.power with
  | none => rfl
  | some p => exact readExponent?_text p

/-- The digits are read as the coefficient, and those after the point are counted. -/
theorem readFixed?_number :
    readFixed? ((s.whole ++ ((s.fraction.map ('.' :: ·)).getD [] ++
      (s.power.map Power.text).getD [])).map ascii) =
      some ⟨s.coefficient, -((s.fraction.getD []).length : Int),
        ((s.power.map Power.text).getD []).map ascii⟩ := by
  have hfraction : ((s.fraction.map ('.' :: ·)).getD []).map ascii =
      ((s.fraction.map (List.map ascii)).map ('.' :: ·)).getD [] := by
    cases s.fraction <;> rfl
  have hdigits : (s.fraction.map (List.map ascii)).getD [] = (s.fraction.getD []).map ascii := by
    cases s.fraction <;> rfl
  have hascii : ∀ c ∈ (s.whole ++ s.fraction.getD []).map ascii, c.isDigit :=
    forall_mem_map.2 fun c hc => (ascii_of_isDigit (s.isDigit c hc)).2.1
  rw [map_append] at hascii
  obtain ⟨hwhole, hafter⟩ := forall_mem_append.1 hascii
  have hrest : ∀ c ∈ (((s.power.map Power.text).getD []).map ascii).head?,
      c.isDigit = false ∧ c ≠ '.' := by
    cases s.power with
    | none => exact nofun
    | some p =>
      intro c hc
      obtain rfl := Option.some.inj hc
      rcases p.mark_eq with hmark | hmark <;> rw [hmark] <;> decide
  rw [map_append, map_append, hfraction, readFixed?_append _ hwhole (hdigits ▸ hafter) hrest,
    hdigits, ← map_append, digitsValue_map_ascii s.isDigit, length_map]
  · rfl
  · rw [hdigits, ← map_append]
    exact mt map_eq_nil_iff.1 s.digits_ne

end Spelling

variable {text : List Char} {exponent : Int}

/-- What starts a number is no sign and starts no word. -/
theorem apart_of_starts (hd : d.isDigit ∨ d = '.') :
    d ≠ '+' ∧ d ≠ '-' ∧ d.toLower ≠ 'i' ∧ d.toLower ≠ 'n' ∧ d.toLower ≠ 's' := by
  have hdigits : ∀ n < 58, 48 ≤ n → Char.ofNat n ≠ '+' ∧ Char.ofNat n ≠ '-' ∧
      (Char.ofNat n).toLower ≠ 'i' ∧ (Char.ofNat n).toLower ≠ 'n' ∧ (Char.ofNat n).toLower ≠ 's' := by
    decide
  rcases hd with hd | rfl
  · obtain ⟨hlow, hhigh⟩ := isDigit_iff_toNat.1 hd
    simpa using hdigits d.toNat (by omega) hlow
  · decide

theorem takeSign_number {tail sign : List Char} (hsign : sign ∈ signs) (hd : d.isDigit ∨ d = '.') :
    Numeral.takeSign (sign ++ d :: tail) = (decide (sign = ['-']), d :: tail) := by
  obtain ⟨hplus, hminus, -⟩ := apart_of_starts hd
  refine Numeral.takeSign_append hsign fun c hc => ?_
  obtain rfl := Option.some.inj hc
  exact ⟨hplus, hminus⟩

theorem read?_of_prepare? {tail sign : List Char} {fixed : Double.Scientific}
    (hprepare : prepare? text = some (sign ++ d :: tail)) (hsign : sign ∈ signs)
    (hd : d.isDigit ∨ d = '.') (hfixed : readFixed? (d :: tail) = some fixed)
    (hexponent : readExponent? fixed.rest = some exponent) :
    read? text = finite? (decide (sign = ['-'])) fixed.coefficient (fixed.exponent + exponent) := by
  obtain ⟨-, -, hi, hn, hs⟩ := apart_of_starts hd
  unfold read?
  rw [hprepare, Option.bind_eq_bind, Option.bind_some, takeSign_number hsign hd]
  simp [hi, Ne.symm hn, Ne.symm hs, hfixed, hexponent]

/-- A text that denotes a decimal is read as that decimal if its exponents are in range, and as nothing
otherwise. -/
theorem read?_of_denotes {negative : Bool} {coefficient : Nat}
    (h : Denotes text negative coefficient exponent) :
    read? text = finite? negative coefficient exponent := by
  obtain ⟨before, core, after, s, htext, hbefore, hafter, hcore, rfl, rfl, rfl⟩ := h
  have hkept : ∀ c ∈ s.text, ascii? c = some (ascii c) ∧ isBlank c = false := by
    intro c hc
    rcases s.mem_text hc with hc | hc
    · exact ⟨(ascii_of_isDigit hc).1, Numeral.isBlank_of_isDigit hc⟩
    · obtain ⟨hascii, heq, hblank, -⟩ := ascii_of_mem c hc
      exact ⟨by rw [heq, hascii], hblank⟩
  have htrim : trim text = core :=
    trim_of_filter htext hbefore hafter (hcore ▸ fun c hc => (hkept c hc).2)
  have hprepare : prepare? text = some (s.text.map ascii) := by
    change ((trim text).filter (· ≠ '_')).mapM ascii? = _
    rw [htrim, hcore, mapM_eq_some_iff, forall₂_map_right_iff, forall₂_same]
    exact fun c hc => (hkept c hc).1
  obtain ⟨d, tail, htail, hd⟩ := s.exists_head ((s.power.map Power.text).getD [])
  have htext : s.text.map ascii = s.sign ++ d :: tail := by
    rw [Spelling.text, map_append, map_ascii_sign s.sign_mem, htail]
  rw [read?_of_prepare? (htext ▸ hprepare) s.sign_mem hd (htail ▸ s.readFixed?_number) s.readExponent?_power]
  rw [Spelling.coefficient, Spelling.exponent, Int.sub_eq_add_neg, Int.add_comm]
  rfl

/-! ## What is read -/

theorem exists_of_takeSign {negative : Bool} {rest : List Char}
    (h : Numeral.takeSign cs = (negative, rest)) :
    ∃ sign ∈ signs, cs = sign ++ rest ∧ negative = decide (sign = ['-']) := by
  unfold Numeral.takeSign at h
  split at h
  all_goals cases h
  · exact ⟨['+'], by decide, rfl, rfl⟩
  · exact ⟨['-'], by decide, rfl, rfl⟩
  · exact ⟨[], by decide, rfl, rfl⟩

/-- Digits with a point among them stand before what is left. -/
theorem exists_of_readFixed? {fixed : Double.Scientific} (h : readFixed? cs = some fixed) :
    ∃ (whole : List Char) (fraction : Option (List Char)),
      cs = whole ++ ((fraction.map ('.' :: ·)).getD [] ++ fixed.rest) ∧
      whole ++ fraction.getD [] ≠ [] ∧ (∀ c ∈ whole ++ fraction.getD [], c.isDigit) ∧
      fixed.coefficient = digitsValue 0 (whole ++ fraction.getD []) ∧
      fixed.exponent = -((fraction.getD []).length : Int) := by
  have hdigits (ds : List Char) : ∀ c ∈ ds.takeWhile Char.isDigit, c.isDigit :=
    fun c hc => mem_takeWhile_imp hc
  have hcs := (takeWhile_append_dropWhile (p := Char.isDigit) (l := cs)).symm
  unfold readFixed? at h
  dsimp only at h
  split at h
  · rename_i rest hrest
    dsimp only at h
    split at h
    · cases h
    · rename_i hne
      obtain rfl := Option.some.inj h
      refine ⟨_, some (rest.takeWhile Char.isDigit), ?_, ?_, ?_, rfl, rfl⟩
      · rw [Option.map_some, Option.getD_some, cons_append, takeWhile_append_dropWhile, ← hrest]
        exact hcs
      · simpa [List.isEmpty_iff] using hne
      · exact forall_mem_append.2 ⟨hdigits cs, hdigits rest⟩
  · dsimp only at h
    split at h
    · cases h
    · rename_i hne
      obtain rfl := Option.some.inj h
      refine ⟨_, none, hcs, ?_, ?_, rfl, rfl⟩
      · simpa [List.isEmpty_iff] using hne
      · exact forall_mem_append.2 ⟨hdigits cs, nofun⟩

theorem exists_of_readExponent? (h : readExponent? cs = some exponent) :
    cs = [] ∧ exponent = 0 ∨ ∃ (mark : Char) (sign ds : List Char), cs = mark :: (sign ++ ds) ∧
      (mark = 'e' ∨ mark = 'E') ∧ sign ∈ signs ∧ ds ≠ [] ∧ (∀ d ∈ ds, d.isDigit) ∧
      exponent = if sign = ['-'] then -(digitsValue 0 ds : Int) else digitsValue 0 ds := by
  unfold readExponent? at h
  split at h
  · exact .inl ⟨rfl, (Option.some.inj h).symm⟩
  · rename_i mark cs
    split at h
    · rename_i hmark
      rcases htake : Numeral.takeSign cs with ⟨negative, ds⟩
      obtain ⟨sign, hsign, rfl, rfl⟩ := exists_of_takeSign htake
      rw [htake] at h
      dsimp only at h
      split at h
      · rename_i hds
        rw [Bool.and_eq_true, all_eq_true] at hds
        refine .inr ⟨mark, sign, ds, rfl, by simpa using hmark, hsign, by simpa using hds.1, hds.2, ?_⟩
        simpa using (Option.some.inj h).symm
      · cases h
    · cases h

section OfAscii

variable (hcs : ∀ c ∈ cs, ascii? c = some (ascii c))

include hcs

theorem isDigit_of_map_ascii (h : ∀ d ∈ cs.map ascii, d.isDigit) : ∀ c ∈ cs, Text.isDigit c :=
  fun c hc => (of_ascii?_eq_some (hcs c hc)).2.1 (h _ (mem_map_of_mem hc))

theorem eq_of_map_ascii (h : ∀ d ∈ cs.map ascii, d.isDigit = false) : cs.map ascii = cs := by
  refine (map_congr_left fun c hc => ?_).trans (map_id cs)
  exact ((of_ascii?_eq_some (hcs c hc)).2.2 (h _ (mem_map_of_mem hc))).symm

theorem exists_power_of_ascii {exponent : Int}
    (h : readExponent? (cs.map ascii) = some exponent) : ∃ power : Option Power,
      cs = (power.map Power.text).getD [] ∧ (power.map Power.value).getD 0 = exponent := by
  have hsigns : ∀ sign ∈ signs, ∀ c ∈ sign, c.isDigit = false :=
    forall_of_mem_signs (by decide) (by decide)
  rcases exists_of_readExponent? h with ⟨hnil, rfl⟩ | ⟨mark, sign, ds, htext, hmark, hsign, hne, hds, rfl⟩
  · exact ⟨none, map_eq_nil_iff.1 hnil, rfl⟩
  · obtain ⟨first, tail, rfl, rfl, htail⟩ := map_eq_cons_iff.1 htext
    obtain ⟨front, digits, rfl, rfl, rfl⟩ := map_eq_append_iff.1 htail
    obtain ⟨hfirst, htail⟩ := forall_mem_cons.1 hcs
    obtain ⟨hfront, hdigits⟩ := forall_mem_append.1 htail
    have hisDigit := isDigit_of_map_ascii hdigits hds
    have hfirst' : first = ascii first :=
      (of_ascii?_eq_some hfirst).2.2 (by rcases hmark with h | h <;> rw [h] <;> decide)
    have hfront' : front.map ascii = front := eq_of_map_ascii hfront (hsigns _ hsign)
    rw [hfront'] at hsign ⊢
    rw [← hfirst'] at hmark
    refine ⟨some ⟨first, front, digits, hmark, hsign, mt map_eq_nil_iff.2 hne, hisDigit⟩, rfl, ?_⟩
    rw [digitsValue_map_ascii hisDigit]
    rfl

theorem exists_fraction_of_ascii {fraction : Option (List Char)}
    (h : cs.map ascii = (fraction.map ('.' :: ·)).getD []) : ∃ fraction' : Option (List Char),
      cs = (fraction'.map ('.' :: ·)).getD [] ∧ (fraction'.getD []).map ascii = fraction.getD [] := by
  cases fraction with
  | none => exact ⟨none, map_eq_nil_iff.1 h, rfl⟩
  | some ds =>
    obtain ⟨point, digits, rfl, hpoint, hdigits⟩ := map_eq_cons_iff.1 h
    have hchar := (of_ascii?_eq_some (hcs point (.head _))).2.2 (by rw [hpoint]; decide)
    exact ⟨some digits, by rw [hchar, hpoint]; rfl, hdigits⟩

/-- A text that is read as a number when it is in ASCII is a spelling of the number. -/
theorem exists_spelling_of_ascii {sign rest : List Char} (hsign : sign ∈ signs)
    (htext : cs.map ascii = sign ++ rest) {fixed : Double.Scientific}
    (hfixed : readFixed? rest = some fixed) {exponent : Int}
    (hexponent : readExponent? fixed.rest = some exponent) :
    ∃ s : Spelling, cs = s.text ∧ s.negative = decide (sign = ['-']) ∧ s.coefficient = fixed.coefficient ∧
      s.exponent = fixed.exponent + exponent := by
  have hsigns : ∀ sign ∈ signs, ∀ c ∈ sign, c.isDigit = false :=
    forall_of_mem_signs (by decide) (by decide)
  obtain ⟨whole, fraction, hrest, hne, hdigits, hcoefficient, hpoint⟩ := exists_of_readFixed? hfixed
  rw [hrest] at htext
  -- Each part in ASCII comes from a part of the text.
  obtain ⟨front, number, rfl, rfl, hnumber⟩ := map_eq_append_iff.1 htext
  obtain ⟨whole, tail, rfl, rfl, htail⟩ := map_eq_append_iff.1 hnumber
  obtain ⟨middle, last, rfl, hmiddle, hlast⟩ := map_eq_append_iff.1 htail
  obtain ⟨hfront, hcs⟩ := forall_mem_append.1 hcs
  obtain ⟨hwhole, hcs⟩ := forall_mem_append.1 hcs
  obtain ⟨hmiddle', hlast'⟩ := forall_mem_append.1 hcs
  obtain ⟨fraction, rfl, hfraction⟩ := exists_fraction_of_ascii hmiddle' hmiddle
  obtain ⟨power, rfl, rfl⟩ := exists_power_of_ascii hlast' (hlast ▸ hexponent)
  have hfront' : front.map ascii = front := eq_of_map_ascii hfront (hsigns _ hsign)
  have hafter : ∀ c ∈ fraction.getD [], ascii? c = some (ascii c) := by
    cases fraction with
    | none => exact nofun
    | some ds => exact fun c hc => hmiddle' c (.tail _ hc)
  rw [hfront'] at hsign ⊢
  rw [← hfraction, ← map_append] at hne hdigits hcoefficient
  rw [← hfraction, length_map] at hpoint
  have hisDigit := isDigit_of_map_ascii (forall_mem_append.2 ⟨hwhole, hafter⟩) hdigits
  rw [digitsValue_map_ascii hisDigit] at hcoefficient
  refine ⟨⟨front, whole, fraction, power, hsign, mt map_eq_nil_iff.2 hne, hisDigit⟩, rfl, rfl,
    hcoefficient.symm, ?_⟩
  rw [hpoint, Spelling.exponent, Int.sub_eq_add_neg, Int.add_comm]

end OfAscii

/-- A text is read as what is no number, as an infinity, or as the finite decimal that it denotes. -/
theorem cases_of_read? {x : Decimal} (h : read? text = some x) :
    x = nan ∨ (∃ negative, x = infinite negative) ∨ ∃ negative coefficient exponent,
      Denotes text negative coefficient exponent ∧ finite? negative coefficient exponent = some x := by
  obtain ⟨ds, hprepare, h⟩ := Option.bind_eq_some_iff.1 h
  rcases htake : Numeral.takeSign ds with ⟨negative, rest⟩
  rw [htake] at h
  dsimp only at h
  split at h
  · exact .inr (.inl ⟨negative, (Option.some.inj h).symm⟩)
  · split at h
    · split at h
      · exact .inl (Option.some.inj h).symm
      · cases h
    · obtain ⟨fixed, hfixed, h⟩ := Option.bind_eq_some_iff.1 h
      obtain ⟨exponent, hexponent, hfinite⟩ := Option.bind_eq_some_iff.1 h
      refine .inr (.inr ⟨negative, fixed.coefficient, fixed.exponent + exponent, ?_, hfinite⟩)
      obtain ⟨sign, hsign, rfl, rfl⟩ := exists_of_takeSign htake
      -- What was brought to ASCII is the text without blanks around it and without underscores.
      have hkept : Forall₂ (ascii? · = some ·) ((trim text).filter (· ≠ '_')) (sign ++ rest) :=
        mapM_eq_some_iff.1 hprepare
      have hmap : ((trim text).filter (· ≠ '_')).map ascii = sign ++ rest := by
        rw [← forall₂_eq_eq_eq, forall₂_map_left_iff]
        exact hkept.imp fun c d hd => (of_ascii?_eq_some hd).1.symm
      have hascii : ∀ c ∈ (trim text).filter (· ≠ '_'), ascii? c = some (ascii c) := by
        rw [← hmap, forall₂_map_right_iff, forall₂_same] at hkept
        exact hkept
      obtain ⟨before, after, htext, hbefore, hafter⟩ := exists_of_trim text
      obtain ⟨s, hs, hnegative, hcoefficient, hsum⟩ :=
        exists_spelling_of_ascii hascii hsign hmap hfixed hexponent
      exact ⟨before, trim text, after, s, htext, hbefore, hafter, hs, hnegative, hcoefficient, hsum⟩

end Decimal

end QueryScribe
