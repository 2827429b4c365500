import Mathlib.Data.Bool.AllAny
import Mathlib.Data.Option.Basic
import Mathlib.Tactic.Common
import QueryScribe.Syntax.Lexer

/-!
# Lexemes and what comes after them

What a scanner takes from the front of a text does not depend on what comes after a separator, such
as a blank, a line break or a closing bracket. Numbers and words end there (`Stable`): they are made
of characters and runs of characters of some classes, and scanners that are put together of stable
ones are stable.
-/

namespace QueryScribe.Lexer

open List

open Text

/-- A scanner for which some characters are as good as the end of the text. -/
structure Stable (stops : Char → Prop) (length? : List Char → Option Nat) : Prop where
  /-- No more is found than there is. -/
  le : ∀ {u : List Char} {n : Nat}, length? u = some n → n ≤ u.length
  /-- What is found is found without what comes after it. -/
  cut : ∀ {u v : List Char} {n : Nat}, length? (u ++ v) = some n → n ≤ u.length →
    length? u = some n
  /-- Where something is found, something is found if more comes after it. -/
  grow : ∀ {u v : List Char} {n : Nat}, length? u = some n → (length? (u ++ v)).isSome = true
  /-- What is found ends at such a character. -/
  stop : ∀ {u w : List Char} {d : Char}, stops d → length? (u ++ d :: w) = length? u

/-! ## Characters and runs -/

section Run

variable {p : Char → Bool} {u v w : List Char} {d : Char} {stops : Char → Prop}

theorem run_le (p : Char → Bool) (cs : List Char) : run p cs ≤ cs.length :=
  ( takeWhile_prefix p).length_le

theorem run_append (p : Char → Bool) (u v : List Char) :
    run p (u ++ v) = if run p u = u.length then u.length + run p v else run p u := by
  unfold run
  rw [takeWhile_append]
  split
  · rw [length_append]
  · rfl

theorem run_cut (h : run p (u ++ v) ≤ u.length) : run p u = run p (u ++ v) := by
  have hle := run_le p u
  rw [run_append] at h ⊢
  split at h <;> split <;> omega

theorem run_stop (hd : p d = false) : run p (u ++ d :: w) = run p u := by
  have hnone : run p (d :: w) = 0 := by simp [run, hd]
  rw [run_append, hnone]
  split <;> omega

/-- A run, which may be empty. -/
def taking (p : Char → Bool) (cs : List Char) : Option Nat := some (run p cs)

/-- A character of a class. -/
def one (p : Char → Bool) : List Char → Option Nat
  | [] => none
  | c :: _ => if p c then some 1 else none

theorem Stable.taking (hp : ∀ d, stops d → p d = false) : Stable stops (taking p) where
  le h := Option.some.inj h ▸ run_le _ _
  cut h hn := by
    cases h
    exact congrArg some (run_cut hn)
  grow _ := rfl
  stop hd := congrArg some (run_stop (hp _ hd))

theorem one_eq_some {cs : List Char} {n : Nat} :
    one p cs = some n ↔ ∃ c rest, cs = c :: rest ∧ p c ∧ n = 1 := by
  cases cs with
  | nil => simp [one]
  | cons c cs => simp [one, eq_comm (a := 1)]

theorem Stable.one (hp : ∀ d, stops d → p d = false) : Stable stops (one p) where
  le h := by
    obtain ⟨c, rest, rfl, -, rfl⟩ := one_eq_some.1 h
    simp
  cut {u v n} h hn := by
    cases u with
    | nil =>
      obtain ⟨-, -, -, -, rfl⟩ := one_eq_some.1 h
      cases hn
    | cons c u => exact h
  grow h := by
    obtain ⟨c, rest, rfl, hc, -⟩ := one_eq_some.1 h
    simp [Lexer.one, hc]
  stop {u w d} hd := by
    cases u with
    | nil => simp [Lexer.one, hp d hd]
    | cons c u => rfl

end Run

/-! ## Scanners that are put together -/

section Combine

variable {first? next? : List Char → Option Nat} {stops stops' : Char → Prop}

/-- What one scanner takes, and then another one. -/
def followed (first? next? : List Char → Option Nat) (cs : List Char) : Option Nat :=
  (first? cs).bind fun n => (next? (cs.drop n)).map (n + ·)

variable {cs : List Char} {P : Char → Prop}

theorem followed_eq_some {n : Nat} : followed first? next? cs = some n ↔
    ∃ k m, first? cs = some k ∧ next? (cs.drop k) = some m ∧ k + m = n := by
  simp [followed, Option.bind_eq_some_iff]

theorem followed_eq_none (h : first? cs = none) :
    followed first? next? cs = none := by
  rw [followed, h, Option.bind_none]

theorem followed_of_some {k : Nat} (h : first? cs = some k) :
    followed first? next? cs = (next? (cs.drop k)).map (k + ·) := by
  rw [followed, h, Option.bind_some]

@[simp]
theorem followed_one_nil (p : Char → Bool) : followed (one p) next? [] = none := rfl

@[simp]
theorem followed_one_cons (p : Char → Bool) (c : Char) (cs : List Char) :
    followed (one p) next? (c :: cs) = if p c then (next? cs).map (1 + ·) else none := by
  cases hc : p c <;> simp [followed, one, hc]

/-- What one scanner takes, or else another one. -/
def either (first? other? : List Char → Option Nat) (cs : List Char) : Option Nat :=
  first? cs <|> other? cs

/-- A scanner that takes something only where a character with a property starts it. -/
def Starts (P : Char → Prop) (length? : List Char → Option Nat) : Prop :=
  ∀ cs n, length? cs = some n → ∃ c rest, cs = c :: rest ∧ P c

theorem starts_one {p : Char → Bool} (h : ∀ c, p c → P c) :
    Starts P (one p) := by
  intro cs n hn
  obtain ⟨c, rest, rfl, hc, -⟩ := one_eq_some.1 hn
  exact ⟨c, rest, rfl, h c hc⟩

theorem Starts.followed (h : Starts P first?) :
    Starts P (followed first? next?) := by
  intro cs n hn
  obtain ⟨k, -, hk, -⟩ := followed_eq_some.1 hn
  exact h cs k hk

theorem Starts.either (h : Starts P first?) (h' : Starts P next?) :
    Starts P (either first? next?) := by
  intro cs n hn
  rcases (Option.orElse_eq_some _ _ _).1 hn with hn | ⟨-, hn⟩
  · exact h cs n hn
  · exact h' cs n hn

/-- A scanner takes the same whatever comes after what another one takes next. -/
def Settles (first? next? : List Char → Option Nat) : Prop :=
  ∀ {u v : List Char} {k m : Nat}, first? u = some k → next? (u.drop k) = some m →
    first? (u ++ v) = some k

theorem settles_one (p : Char → Bool) : Settles (one p) next? := by
  intro u v k m h _
  obtain ⟨c, rest, rfl, hc, rfl⟩ := one_eq_some.1 h
  simp [one, hc]

namespace Stable

theorem mono (h : Stable stops first?) (hstops : ∀ d, stops' d → stops d) :
    Stable stops' first? :=
  ⟨h.le, h.cut, h.grow, fun hd => h.stop (hstops _ hd)⟩

/-- A scanner is settled by what starts where it stops. -/
theorem settles (h : Stable stops first?) (hstart : Starts stops next?) :
    Settles first? next? := by
  intro u v k m hk hm
  obtain ⟨c, rest, hdrop, hc⟩ := hstart _ _ hm
  have hu : u = u.take k ++ c :: rest := by rw [← hdrop, take_append_drop]
  rw [hu, append_assoc, cons_append, h.stop hc]
  rw [hu, h.stop hc] at hk
  exact hk

theorem followed (hfirst : Stable stops first?) (hnext : Stable stops next?)
    (hsettles : Settles first? next?) : Stable stops (followed first? next?) where
  le h := by
    obtain ⟨k, m, hk, hm, rfl⟩ := followed_eq_some.1 h
    have hle := hfirst.le hk
    have hle' := hnext.le hm
    rw [length_drop] at hle'
    omega
  cut {u v n} h hn := by
    obtain ⟨k, m, hk, hm, rfl⟩ := followed_eq_some.1 h
    have hle : k ≤ u.length := by omega
    rw [drop_append_of_le_length hle] at hm
    refine followed_eq_some.2 ⟨k, m, hfirst.cut hk hle, hnext.cut hm ?_, rfl⟩
    rw [length_drop]
    omega
  grow {u v n} h := by
    obtain ⟨k, m, hk, hm, rfl⟩ := followed_eq_some.1 h
    obtain ⟨m', hm'⟩ := Option.isSome_iff_exists.1 (hnext.grow (v := v) hm)
    rw [← drop_append_of_le_length (hfirst.le hk)] at hm'
    rw [followed_eq_some.2 ⟨k, m', hsettles hk hm, hm', rfl⟩]
    rfl
  stop {u w d} hd := by
    unfold Lexer.followed
    rw [hfirst.stop hd]
    cases hk : first? u with
    | none => rfl
    | some k =>
      rw [Option.bind_some, Option.bind_some, drop_append_of_le_length (hfirst.le hk),
        hnext.stop hd]

theorem eq_none_of_append (h : Stable stops first?) {u v : List Char}
    (hnone : first? (u ++ v) = none) : first? u = none := by
  cases hu : first? u with
  | none => rfl
  | some n =>
    have hgrow := h.grow (v := v) hu
    rw [hnone] at hgrow
    cases hgrow

theorem either (h : Stable stops first?) (h' : Stable stops next?) :
    Stable stops (either first? next?) where
  le hn := by
    rcases (Option.orElse_eq_some _ _ _).1 hn with hn | ⟨-, hn⟩
    · exact h.le hn
    · exact h'.le hn
  cut hn hle := by
    rcases (Option.orElse_eq_some _ _ _).1 hn with hn | ⟨hnone, hn⟩
    · exact (Option.orElse_eq_some _ _ _).2 (.inl (h.cut hn hle))
    · exact (Option.orElse_eq_some _ _ _).2 (.inr ⟨h.eq_none_of_append hnone, h'.cut hn hle⟩)
  grow {u v n} hn := by
    unfold Lexer.either at hn ⊢
    cases hk : first? (u ++ v) with
    | some k => rfl
    | none =>
      rw [h.eq_none_of_append hk] at hn
      exact h'.grow hn
  stop hd := by rw [Lexer.either, Lexer.either, h.stop hd, h'.stop hd]

/-- What is not found in an empty text is not empty. -/
theorem pos (h : Stable stops first?) (hnil : first? [] = none) {cs : List Char} {n : Nat}
    (hn : first? cs = some n) : 0 < n := by
  by_contra hzero
  have hcut := h.cut (u := []) hn (by simpa using hzero)
  rw [hnil] at hcut
  cases hcut

end Stable

end Combine

/-! ## Numbers -/

section Number

variable {stops : Char → Prop}

/-- A run that is not empty. -/
def runs (p : Char → Bool) : List Char → Option Nat := followed (one p) (taking p)

theorem runs_eq (p : Char → Bool) (cs : List Char) :
    runs p cs = if run p cs = 0 then none else some (run p cs) := by
  cases cs with
  | nil => rfl
  | cons c cs => cases hc : p c <;> simp [runs, taking, run, hc, Nat.add_comm]

variable {p : Char → Bool} {cs : List Char}

theorem stable_runs (hp : ∀ d, stops d → p d = false) : Stable stops (runs p) :=
  (Stable.one hp).followed (.taking hp) (settles_one p)

theorem runs_of_zero (h : run p cs = 0) : runs p cs = none := by
  rw [runs_eq, if_pos h]

theorem runs_of_ne_zero (h : run p cs ≠ 0) :
    runs p cs = some (run p cs) := by
  rw [runs_eq, if_neg h]

/-- The mark, an optional sign and the digits of an exponent. -/
def power? : List Char → Option Nat :=
  followed (one fun c => c == 'e' || c == 'E')
    (either (followed (one fun c => c == '+' || c == '-') (runs isDigit)) (runs isDigit))

theorem exponent_eq (cs : List Char) : exponent cs = (power? cs).getD 0 := by
  rcases cs with _ | ⟨e, _ | ⟨c, cs⟩⟩
  · rfl
  · simp only [exponent, power?, followed_one_cons]
    split <;> rfl
  · simp only [exponent, power?, followed_one_cons, either]
    split
    · cases hc : c == '+' || c == '-' with
      | true =>
        have hdigit : isDigit c = false := by
          rcases Bool.or_eq_true_iff.1 hc with hc | hc <;> (rw [beq_iff_eq.1 hc]; decide)
        have hnone : runs isDigit (c :: cs) = none := by simp [runs, hdigit]
        by_cases hrun : run isDigit cs = 0
        · simp [hnone, hrun, runs_eq]
        · simp [hnone, hrun, runs_eq]; omega
      | false =>
        by_cases hrun : run isDigit (c :: cs) = 0 <;> simp [runs_eq, hrun]
    · rfl

theorem stable_power (hstops : ∀ d, stops d → isDigit d = false ∧
    (d == 'e' || d == 'E') = false ∧ (d == '+' || d == '-') = false) : Stable stops power? := by
  have hdigits : Stable stops (runs isDigit) := stable_runs fun d hd => (hstops d hd).1
  refine (Stable.one fun d hd => (hstops d hd).2.1).followed (.either ?_ hdigits) (settles_one _)
  exact (Stable.one fun d hd => (hstops d hd).2.2).followed hdigits (settles_one _)

/-- A point, digits and maybe an exponent. -/
def fraction (digits? : List Char → Option Nat) : List Char → Option Nat :=
  followed (one (· == '.')) (either (followed digits? power?) digits?)

theorem fraction_of_ne (h : ∀ rest, cs ≠ '.' :: rest) (digits? : List Char → Option Nat) :
    fraction digits? cs = none := by
  cases cs with
  | nil => rfl
  | cons c cs =>
    have hc : c ≠ '.' := by
      rintro rfl
      exact h cs rfl
    simp [fraction, hc]

theorem fraction_of_some {digits? : List Char → Option Nat} {rest : List Char} {k : Nat}
    (h : digits? rest = some k) :
    fraction digits? ('.' :: rest) = some (1 + (k + exponent (rest.drop k))) := by
  simp only [fraction, followed_one_cons, either, followed_of_some h, h, exponent_eq]
  cases power? (rest.drop k) <;> rfl

/-- A number with a point or an exponent: it has digits before the point, or after it, or before the
exponent. -/
theorem float?_eq : float? =
    either (followed (runs isDigit) (fraction (taking isDigitOrUnderscore)))
      (either (fraction (runs isDigitOrUnderscore)) (followed (runs isDigit) power?)) := by
  funext cs
  unfold float? either
  dsimp only
  by_cases hrun : run isDigit cs = 0
  · rw [followed_eq_none (runs_of_zero hrun), followed_eq_none (runs_of_zero hrun), hrun,
      drop_zero]
    split
    · rename_i rest
      by_cases hdigits : run isDigitOrUnderscore rest = 0
      · simp [fraction, either, followed_eq_none (runs_of_zero hdigits), runs_of_zero hdigits, hdigits]
      · simp [fraction_of_some (runs_of_ne_zero hdigits), hdigits, Nat.add_comm 1, Nat.add_assoc]
    · rename_i hne
      simp [fraction_of_ne fun _ h => hne _ h]
  · rw [followed_of_some (runs_of_ne_zero hrun), followed_of_some (runs_of_ne_zero hrun)]
    split
    · rename_i rest htail
      have hdrop : cs.drop (run isDigit cs + 1 + run isDigitOrUnderscore rest) =
          rest.drop (run isDigitOrUnderscore rest) := by
        rw [Nat.add_assoc, ← drop_drop, htail, Nat.add_comm 1, drop_succ_cons]
      have htaking : taking isDigitOrUnderscore rest = some (run isDigitOrUnderscore rest) := rfl
      rw [htail, fraction_of_some htaking, hdrop]
      simp [hrun, Nat.add_assoc]
    · rename_i hne
      -- The text starts with a digit, so not with a point.
      have hfirst : ∀ rest, cs ≠ '.' :: rest := by
        have hpoint : isDigit '.' = false := by decide
        rintro rest rfl
        exact hrun (by simp [run, hpoint])
      rw [fraction_of_ne hne, fraction_of_ne hfirst, exponent_eq]
      cases hpower : power? (cs.drop (run isDigit cs)) with
      | none => simp
      | some n =>
        have hstable : Stable (fun _ => False) power? := stable_power nofun
        have hpos := hstable.pos rfl hpower
        simp [hrun, Nat.ne_of_gt hpos]

/-- A character with which a number may start. -/
def startsNumber (c : Char) : Bool := isDigit c || c == '.' || c == '0' || ('1' ≤ c && c ≤ '9')

/-- Characters at which numbers, words and signs end. -/
def separators : List Char := [' ', '\n', ',', ';', ':', ')', ']', '\x7d']

/-- Characters at which a number with a point or an exponent ends: separators, and the mark of
imaginary numbers. -/
def numberStops : List Char := 'j' :: 'J' :: separators

theorem mem_numberStops {d : Char} (h : d ∈ separators) : d ∈ numberStops :=
  .tail _ (.tail _ h)

theorem numberStops_other : ∀ d ∈ numberStops, isDigitOrUnderscore d = false ∧ (d == '.') = false ∧ isDigit d = false ∧
    (d == 'e' || d == 'E') = false ∧ (d == '+' || d == '-') = false :=
  all_iff_forall_prop.1 (by decide)

theorem stable_fraction {digits? : List Char → Option Nat} (h : Stable (· ∈ numberStops) digits?)
    (hsettles : Settles digits? power?) : Stable (· ∈ numberStops) (fraction digits?) := by
  have hpower : Stable (· ∈ numberStops) power? := stable_power fun d hd => (numberStops_other d hd).2.2
  exact (Stable.one fun d hd => (numberStops_other d hd).2.1).followed
    ((h.followed hpower hsettles).either h) (settles_one _)

theorem stable_float : Stable (· ∈ numberStops) float? := by
  have hdigit : ∀ d ∈ numberStops, isDigit d = false := fun d hd => (numberStops_other d hd).2.2.1
  have hother : ∀ d ∈ numberStops, isDigitOrUnderscore d = false :=
    fun d hd => (numberStops_other d hd).1
  have hmark {p : Char → Bool} (hp : p 'e' = false ∧ p 'E' = false) : Starts (p · = false) power? := by
    refine (starts_one fun c hc => ?_).followed
    rcases Bool.or_eq_true_iff.1 hc with hc | hc <;> (rw [beq_iff_eq.1 hc])
    exacts [hp.1, hp.2]
  have hpoint : Starts (isDigit · = false) (fraction (taking isDigitOrUnderscore)) :=
    (starts_one fun c hc => by rw [beq_iff_eq.1 hc]; decide).followed
  rw [float?_eq]
  refine ((stable_runs hdigit).followed (stable_fraction (.taking hother) ?_) ?_).either
    ((stable_fraction (stable_runs hother) ?_).either
      ((stable_runs hdigit).followed (stable_power fun d hd => (numberStops_other d hd).2.2) ?_))
  · exact (Stable.taking fun _ => id).settles (hmark (by decide))
  · exact (stable_runs fun _ => id).settles hpoint
  · exact (stable_runs fun _ => id).settles (hmark (by decide))
  · exact (stable_runs fun _ => id).settles (hmark (by decide))

/-- An imaginary number: digits, or a number with a point or an exponent, and a mark. -/
theorem imag?_eq : imag? = either (followed (runs isDigit) (one fun c => c == 'j' || c == 'J'))
    (followed float? (one fun c => c == 'j' || c == 'J')) := by
  funext cs
  unfold imag?
  extract_lets marked whole
  have hmarked : marked = fun n => (one (fun c => c == 'j' || c == 'J') (cs.drop n)).map (n + ·) := by
    funext n
    unfold marked
    cases cs.drop n with
    | nil => rfl
    | cons c rest => cases hc : c == 'j' || c == 'J' <;> simp [one, hc]
  rw [hmarked, either, followed, followed, runs_eq]
  dsimp only [whole]
  split <;> rfl

theorem stable_imag : Stable (· ∈ separators) imag? := by
  have hmark : ∀ d ∈ separators, (d == 'j' || d == 'J') = false :=
    all_iff_forall_prop.1 (by decide)
  have hdigit : ∀ d ∈ separators, isDigit d = false :=
    fun d hd => (numberStops_other d (mem_numberStops hd)).2.2.1
  have hstops : Starts (· ∈ numberStops) (one fun c => c == 'j' || c == 'J') :=
    starts_one fun c hc => by
      rcases Bool.or_eq_true_iff.1 hc with hc | hc <;> (rw [beq_iff_eq.1 hc]; decide)
  rw [imag?_eq]
  refine ((stable_runs hdigit).followed (.one hmark) ?_).either
    ((stable_float.mono fun _ => mem_numberStops).followed (.one hmark) (stable_float.settles hstops))
  exact (stable_runs fun d hd => (numberStops_other d hd).2.2.1).settles hstops

/-- A number with a base: a zero, the letter of the base and digits. -/
theorem based?_eq (lower upper : Char) (digit : Char → Bool) : based? lower upper digit =
    followed (one (· == '0')) (followed (one fun c => c == lower || c == upper) (taking digit)) := by
  funext cs
  unfold based?
  split
  · simp only [followed_one_cons, beq_self_eq_true, taking]
    split
    · simp [← Nat.add_assoc]
    · rfl
  · rename_i hne
    rcases cs with _ | ⟨a, _ | ⟨c, rest⟩⟩
    · rfl
    · simp
    · have ha : a ≠ '0' := fun h => hne c rest (by rw [h])
      simp [ha]

theorem stable_based {lower upper : Char} {digit : Char → Bool}
    (hstop : ∀ d ∈ separators, digit d = false ∧ (d == lower || d == upper) = false) :
    Stable (· ∈ separators) (based? lower upper digit) := by
  have hzero : ∀ d ∈ separators, (d == '0') = false := all_iff_forall_prop.1 (by decide)
  rw [based?_eq]
  refine (Stable.one hzero).followed (Stable.followed ?_ ?_ (settles_one _)) (settles_one _)
  · exact .one fun d hd => (hstop d hd).2
  · exact .taking fun d hd => (hstop d hd).1

/-- A decimal integer: a lone zero, or digits that start with another one. -/
theorem decimal?_eq : decimal? = either (one (· == '0'))
    (followed (one fun c => '1' ≤ c && c ≤ '9') (taking isDigitOrUnderscore)) := by
  funext cs
  unfold decimal? either
  split
  · rfl
  · rename_i c rest hne
    have hc : c ≠ '0' := fun h => hne (by rw [h])
    simp [one, hc, taking]
  · rfl

theorem stable_decimal : Stable (· ∈ separators) decimal? := by
  have hother : ∀ d ∈ separators, (d == '0') = false ∧ ('1' ≤ d && d ≤ '9') = false ∧
      isDigitOrUnderscore d = false := all_iff_forall_prop.1 (by decide)
  rw [decimal?_eq]
  exact (Stable.one fun d hd => (hother d hd).1).either
    ((Stable.one fun d hd => (hother d hd).2.1).followed (.taking fun d hd => (hother d hd).2.2)
      (settles_one _))

theorem starts_runs {next? : List Char → Option Nat} :
    Starts (startsNumber ·) (followed (runs isDigit) next?) :=
  (starts_one fun c hc => by simp [startsNumber, hc]).followed.followed

theorem starts_float : Starts (startsNumber ·) float? := by
  have hpoint {digits? : List Char → Option Nat} :
      Starts (startsNumber ·) (fraction digits?) :=
    (starts_one fun c hc => by simp [startsNumber, beq_iff_eq.1 hc]).followed
  exact float?_eq ▸ starts_runs.either (hpoint.either starts_runs)

theorem starts_based (lower upper : Char) (digit : Char → Bool) :
    Starts (startsNumber ·) (based? lower upper digit) :=
  based?_eq _ _ _ ▸ (starts_one fun c hc => by simp [startsNumber, beq_iff_eq.1 hc]).followed

theorem starts_decimal : Starts (startsNumber ·) decimal? :=
  decimal?_eq ▸ (starts_one fun c hc => by simp [startsNumber, beq_iff_eq.1 hc]).either
    (starts_one fun c hc => by rw [startsNumber, hc, Bool.or_true]).followed

/-- The scanners of numbers are stable, and the others are those of strings and line breaks. -/
theorem number_of_mem_classes {t : Terminal} {length? : List Char → Option Nat}
    (h : (t, length?) ∈ classes) :
    (t ≠ .newline ∧ Stable (· ∈ separators) length? ∧ Starts (startsNumber ·) length?) ∨
      t = .string ∧ length? = string? ∨ t = .longString ∧ length? = longString? ∨
      t = .newline ∧ length? = newline? := by
  have hbased {lower upper : Char} {digit : Char → Bool} (hstop : ∀ d ∈ separators,
      digit d = false ∧ (d == lower || d == upper) = false) :=
    And.intro (stable_based hstop) (starts_based lower upper digit)
  simp only [classes, mem_cons, Prod.mk.injEq, not_mem_nil, or_false] at h
  obtain ⟨rfl, rfl⟩ | ⟨rfl, rfl⟩ | ⟨rfl, rfl⟩ | ⟨rfl, rfl⟩ | ⟨rfl, rfl⟩ | h | h | h | ⟨rfl, rfl⟩ := h
  · exact .inl ⟨by decide, stable_imag, imag?_eq ▸ starts_runs.either starts_float.followed⟩
  · exact .inl ⟨by decide, stable_float.mono fun _ => mem_numberStops, starts_float⟩
  · exact .inl ⟨by decide, hbased (all_iff_forall_prop.1 (by decide))⟩
  · exact .inl ⟨by decide, hbased (all_iff_forall_prop.1 (by decide))⟩
  · exact .inl ⟨by decide, hbased (all_iff_forall_prop.1 (by decide))⟩
  · exact .inr (.inl h)
  · exact .inr (.inr (.inl h))
  · exact .inr (.inr (.inr h))
  · exact .inl ⟨by decide, stable_decimal, starts_decimal⟩

end Number

/-! ## Words and blanks -/

theorem word?_eq : word? = followed (one isWordStart) (taking isWord) := by
  funext cs
  cases cs with
  | nil => rfl
  | cons c cs => simp [word?, taking]

theorem stable_word : Stable (· ∈ separators) word? := by
  have hstop : ∀ d ∈ separators, isWord d = false ∧ isWordStart d = false :=
    all_iff_forall_prop.1 (by decide)
  rw [word?_eq]
  exact (Stable.one fun d hd => (hstop d hd).2).followed (.taking fun d hd => (hstop d hd).1)
    (settles_one _)

theorem starts_word : Starts (isWordStart ·) word? :=
  word?_eq ▸ (starts_one fun _ => id).followed

theorem gap?_eq : gap? = runs isGap := funext fun cs => (runs_eq isGap cs).symm

theorem stable_gap : Stable (isGap · = false) gap? := gap?_eq ▸ stable_runs fun _ => id

theorem starts_gap : Starts (isGap ·) gap? := gap?_eq ▸ (starts_one fun _ => id).followed

/-- A character that a text does not hold is as good as the end of what the text is looked for in. -/
theorem prefix_stop {text u w : List Char} {d : Char} (h : d ∉ text) :
    text <+: u ++ d :: w ↔ text <+: u := by
  induction text generalizing u with
  | nil => simp
  | cons c text ih =>
    rw [mem_cons, not_or] at h
    cases u with
    | nil =>
      rw [nil_append, cons_prefix_cons, prefix_nil]
      simp [Ne.symm h.1]
    | cons a u => rw [cons_append, cons_prefix_cons, cons_prefix_cons, ih h.2]

end QueryScribe.Lexer
