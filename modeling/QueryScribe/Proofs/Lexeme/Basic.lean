import QueryScribe.Proofs.Lexeme.Stability

/-!
# Lexemes

A scanner takes something from the front of a text, and no more than there is. So does `scan`
(`scan_length`): reading a text lexeme by lexeme comes to its end. It finds only terminals that can
be written (`isWritten_of_scan`); the others are made by the layout of the lines.
-/

namespace QueryScribe.Lexer

open List

/-- A scanner that takes at least one character and no more than there are. -/
def Measures (length? : List Char → Option Nat) : Prop :=
  ∀ cs n, length? cs = some n → 0 < n ∧ n ≤ cs.length

theorem Stable.measures {stops : Char → Prop} {length? : List Char → Option Nat}
    (h : Stable stops length?) (hnil : length? [] = none) : Measures length? :=
  fun _ _ hn => ⟨h.pos hnil hn, h.le hn⟩

theorem length_of_drop {cs rest : List Char} {n : Nat} {c : Char} (h : cs.drop n = c :: rest) :
    cs.length = n + 1 + rest.length := by
  have hlength := congrArg List.length h
  rw [length_drop, length_cons] at hlength
  omega

/-! ## Strings -/

variable {cs : List Char} {accepts : Terminal → Bool}

variable {n : Nat}

theorem closeShort_le {quote : Char} (h : closeShort quote cs = some n) : n ≤ cs.length := by
  fun_induction closeShort quote cs generalizing n with
  | case1 => cases h
  | case2 => cases h
  | case3 => cases h
  | case4 c cs _ ih =>
    obtain ⟨m, hm, rfl⟩ := Option.map_eq_some_iff.1 h
    have hle := ih hm
    simp only [length_cons]
    omega
  | case5 => cases h; simp
  | case6 c cs _ _ _ _ ih =>
    obtain ⟨m, hm, rfl⟩ := Option.map_eq_some_iff.1 h
    have hle := ih hm
    simp only [length_cons]
    omega

theorem closeLong_le {quote : Char} (h : closeLong quote cs = some n) : n ≤ cs.length := by
  fun_induction closeLong quote cs generalizing n with
  | case1 => cases h
  | case2 c cs ih =>
    obtain ⟨m, hm, rfl⟩ := Option.map_eq_some_iff.1 h
    have hle := ih hm
    simp only [length_cons]
    omega
  | case3 c cs _ hquotes =>
    cases h
    exact ( isPrefixOf_iff_prefix.1 hquotes).length_le
  | case4 c cs _ _ ih =>
    obtain ⟨m, hm, rfl⟩ := Option.map_eq_some_iff.1 h
    have hle := ih hm
    simp only [length_cons]
    omega

theorem measures_string : Measures string? := by
  intro cs n h
  obtain ⟨mark, -, h⟩ := Option.bind_eq_some_iff.1 h
  split at h
  · rename_i q rest hrest
    split at h
    · cases h
    · obtain ⟨m, hm, rfl⟩ := Option.map_eq_some_iff.1 h
      have hle := closeShort_le hm
      have hlength := length_of_drop hrest
      omega
  · cases h

theorem measures_longString : Measures longString? := by
  intro cs n h
  obtain ⟨mark, -, h⟩ := Option.bind_eq_some_iff.1 h
  split at h
  · rename_i q rest hrest
    split at h
    · rename_i hquotes
      obtain ⟨m, hm, rfl⟩ := Option.map_eq_some_iff.1 h
      have hle := closeLong_le hm
      have hlength := length_of_drop hrest
      have htwo := ( isPrefixOf_iff_prefix.1 hquotes).length_le
      simp only [length_cons, length_nil] at htwo
      rw [length_drop] at hle
      omega
    · cases h
  · cases h

/-! ## Line breaks and signs -/

theorem lineEnd_le (state : LineEnd) (cs : List Char) : lineEnd state cs ≤ cs.length := by
  fun_induction lineEnd state cs <;> grind

theorem measures_newline : Measures newline? := by
  intro cs n h
  unfold newline? at h
  dsimp only at h
  split at h
  · cases h
  · cases h
    have hle := lineEnd_le .nothing cs
    omega

theorem measures_continuation : Measures continuation? := by
  intro cs n h
  unfold continuation? at h
  split at h
  · rename_i cs
    dsimp only at h
    split at h
    · rename_i hrest
      cases h
      have hlength := length_of_drop hrest
      simp only [length_cons]
      omega
    · rename_i hrest
      cases h
      have hlength := length_of_drop hrest
      simp only [length_cons] at hlength ⊢
      omega
    · cases h
  · cases h

theorem length_le_of_prefix {text : String} (h : text.toList <+: cs) : text.length ≤ cs.length := by
  rw [← String.length_toList]
  exact h.length_le

theorem measures_oneOf {texts : List String} (hne : ∀ text ∈ texts, 0 < text.length) :
    Measures (oneOf? texts) := by
  intro cs n h
  obtain ⟨text, hfind, rfl⟩ := Option.map_eq_some_iff.1 h
  have hfound := find?_some hfind
  exact ⟨hne text (mem_of_find?_eq_some hfind),
    length_le_of_prefix ( isPrefixOf_iff_prefix.1 hfound)⟩

/-! ## All lexemes -/

theorem find?_of_imp {α : Type} {p q : α → Bool} {l : List α} {a : α} (h : l.find? p = some a)
    (ha : q a) (hq : ∀ b ∈ l, q b → p b) : l.find? q = some a := by
  obtain ⟨-, front, back, rfl, hfront⟩ := find?_eq_some_iff_append.1 h
  refine find?_eq_some_iff_append.2 ⟨ha, front, back, rfl, fun b hb => ?_⟩
  have hnot := hfront b hb
  rw [Bool.not_eq_true', Bool.eq_false_iff] at hnot ⊢
  exact fun hqb => hnot (hq b (mem_append_left _ hb) hqb)

theorem measures_of_mem_classes {t : Terminal} {length? : List Char → Option Nat}
    (h : (t, length?) ∈ classes) : Measures length? := by
  have hnil : ∀ e ∈ classes, e.2 [] = none := by decide
  rcases number_of_mem_classes h with ⟨-, hstable, -⟩ | ⟨-, rfl⟩ | ⟨-, rfl⟩ | ⟨-, rfl⟩
  · exact hstable.measures (hnil _ h)
  · exact measures_string
  · exact measures_longString
  · exact measures_newline

theorem length_pos_of_mem_spelled : ∀ e ∈ Terminal.spelled, 0 < e.2.length := by decide

theorem isWritten_of_mem_classes : ∀ t ∈ classes.map (·.1), t.isWritten := by decide

theorem isWritten_of_mem_spelled : ∀ e ∈ Terminal.spelled, e.1.isWritten := by decide

/-- The terminal that a word stands for. -/
def wordKind (accepts : Terminal → Bool) (word : String) : Terminal :=
  (Terminal.ofWord? accepts word).getD .name

theorem isWritten_wordKind (accepts : Terminal → Bool) (word : String) :
    (wordKind accepts word).isWritten := by
  unfold wordKind Terminal.ofWord?
  cases hfind : Terminal.spelled.find? fun e => e.2 == word && accepts e.1 with
  | none => rfl
  | some e => exact isWritten_of_mem_spelled e (mem_of_find?_eq_some hfind)

/-- What can be found at the start of a text. -/
inductive Found (accepts : Terminal → Bool) (cs : List Char) : Lexeme → Prop
  | ofClass {t : Terminal} {length? : List Char → Option Nat} {n : Nat} :
    (t, length?) ∈ classes → length? cs = some n → Found accepts cs ⟨some t, n⟩
  | continuation {n : Nat} : continuation? cs = some n → Found accepts cs ⟨none, n⟩
  | word {n : Nat} : word? cs = some n →
    Found accepts cs ⟨some (wordKind accepts (String.ofList (cs.take n))), n⟩
  | gap {n : Nat} : gap? cs = some n → Found accepts cs ⟨none, n⟩
  | assignment {n : Nat} : oneOf? assignments cs = some n → Found accepts cs ⟨some .augAssign, n⟩
  | spelled {t : Terminal} {text : String} :
    (t, text) ∈ Terminal.spelled → text.toList <+: cs → Found accepts cs ⟨some t, text.length⟩

/-- A lexeme is found in one of these ways. -/
theorem found_of_scan {l : Lexeme} (h : scan accepts cs = some l) : Found accepts cs l := by
  unfold scan at h
  rcases (Option.orElse_eq_some _ _ _).1 h with h | ⟨-, h⟩
  · obtain ⟨⟨t, length?⟩, hmem, h⟩ := exists_of_findSome?_eq_some h
    dsimp only at h
    split at h
    · obtain ⟨n, hn, rfl⟩ := Option.map_eq_some_iff.1 h
      exact .ofClass hmem hn
    · cases h
  rcases (Option.orElse_eq_some _ _ _).1 h with h | ⟨-, h⟩
  · obtain ⟨n, hn, rfl⟩ := Option.map_eq_some_iff.1 h
    exact .continuation hn
  rcases (Option.orElse_eq_some _ _ _).1 h with h | ⟨-, h⟩
  · split at h
    · obtain ⟨n, hn, rfl⟩ := Option.map_eq_some_iff.1 h
      exact .word hn
    · cases h
  rcases (Option.orElse_eq_some _ _ _).1 h with h | ⟨-, h⟩
  · obtain ⟨n, hn, rfl⟩ := Option.map_eq_some_iff.1 h
    exact .gap hn
  rcases (Option.orElse_eq_some _ _ _).1 h with h | ⟨-, h⟩
  · split at h
    · obtain ⟨n, hn, rfl⟩ := Option.map_eq_some_iff.1 h
      exact .assignment hn
    · cases h
  · obtain ⟨⟨t, text⟩, hfind, rfl⟩ := Option.map_eq_some_iff.1 h
    have hfound := find?_some hfind
    exact .spelled (mem_of_find?_eq_some hfind)
      ( isPrefixOf_iff_prefix.1 (Bool.and_eq_true_iff.1 hfound).2)

theorem scan_length {l : Lexeme}
    (h : scan accepts cs = some l) : 0 < l.length ∧ l.length ≤ cs.length := by
  cases found_of_scan h with
  | ofClass hmem hn => exact measures_of_mem_classes hmem cs _ hn
  | continuation hn => exact measures_continuation cs _ hn
  | word hn => exact stable_word.measures rfl cs _ hn
  | gap hn => exact stable_gap.measures rfl cs _ hn
  | assignment hn =>
    have hne : ∀ text ∈ assignments, 0 < text.length := by decide
    exact measures_oneOf hne cs _ hn
  | spelled hmem hfront =>
    exact ⟨length_pos_of_mem_spelled _ hmem, length_le_of_prefix hfront⟩

theorem isWritten_of_scan {kind : Terminal} (h : scan accepts cs = some ⟨some kind, n⟩) : kind.isWritten := by
  cases found_of_scan h with
  | ofClass hmem _ => exact isWritten_of_mem_classes _ (mem_map_of_mem hmem)
  | word _ => exact isWritten_wordKind _ _
  | assignment _ => rfl
  | spelled hmem _ => exact isWritten_of_mem_spelled _ hmem

end QueryScribe.Lexer
