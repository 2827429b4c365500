import Mathlib.Data.List.Lex
import Mathlib.Order.Monotone.Basic
import Mathlib.Tactic.IntervalCases
import QueryScribe.Proofs.Values
import QueryScribe.Target

/-!
# Dates

What a date is does not depend on how days are counted: a day has a year, a month and a place in the
month (`IsDay`), and the next day is the next place, the next month or the next year (`nextDay`). Three to
seven numbers make a moment exactly if they are a day and a time of the day (`moment_eq_ok_iff`).

The count of days goes up by one from each day to the next (`dayNumber_nextDay`): within a month by
definition, from month to month by the length of the month, and from year to year because the divisions by
4, 100 and 400 change together exactly in leap years (`daysBeforeYear_succ`). Each day therefore lies
between the first days of its month and of the next one, and these between those of the years, so days
are counted in the order of their components (`dayNumber_lt_of_year`, `dayNumber_lt_of_month`). The
milliseconds of a day are fewer than those between two days, so moments are, too.
-/

namespace QueryScribe

open List

open Moment

/-! ## The calendar -/

/-- A leap year: a multiple of 4, and of 400 if it is one of 100. -/
def LeapYear (y : Int) : Prop := 4 ∣ y ∧ (100 ∣ y → 400 ∣ y)

instance (y : Int) : Decidable (LeapYear y) := inferInstanceAs (Decidable (_ ∧ _))

/-- The lengths of the twelve months outside of leap years. -/
def monthLengths : List Int := [31, 28, 31, 30, 31, 30, 31, 31, 30, 31, 30, 31]

/-- The length of a month: in leap years the second month has a day more. -/
def monthLength (y m : Int) : Int :=
  monthLengths.getD (m.toNat - 1) 0 + if m = 2 ∧ LeapYear y then 1 else 0

/-- A day of the years 1 to 9999. -/
structure IsDay (y m d : Int) : Prop where
  year : 1 ≤ y ∧ y ≤ 9999
  month : 1 ≤ m ∧ m ≤ 12
  day : 1 ≤ d ∧ d ≤ monthLength y m

/-- A time of the day. -/
structure IsTime (hour minute second microsecond : Int) : Prop where
  hour : 0 ≤ hour ∧ hour < 24
  minute : 0 ≤ minute ∧ minute < 60
  second : 0 ≤ second ∧ second < 60
  microsecond : 0 ≤ microsecond ∧ microsecond < 1000000

/-- The year, month and day that follow. -/
def nextDay (y m d : Int) : Int × Int × Int :=
  if d < monthLength y m then (y, m, d + 1) else if m < 12 then (y, m + 1, 1) else (y + 1, 1, 1)

namespace Moment

variable {y m d : Int} {t u : Moment}

/-- A day and a time of the day. -/
structure IsValid (t : Moment) : Prop where
  day : IsDay t.year t.month t.day
  time : IsTime t.hour t.minute t.second t.microsecond

/-- The moment with these components; missing ones are zero. -/
def ofComponents (parts : List Int) : Moment :=
  ⟨parts.getD 0 0, parts.getD 1 0, parts.getD 2 0, parts.getD 3 0, parts.getD 4 0, parts.getD 5 0,
    parts.getD 6 0⟩

/-- The start of a day. -/
def midnight (y m d : Int) : Moment := ⟨y, m, d, 0, 0, 0, 0⟩

theorem isLeap_iff (y : Int) : isLeap y ↔ LeapYear y := by
  simp only [isLeap, LeapYear, Bool.and_eq_true, Bool.or_eq_true, decide_eq_true_eq]
  omega

theorem daysInMonth_eq (hm : 1 ≤ m ∧ m ≤ 12) : daysInMonth y m = monthLength y m := by
  have hleap : (if isLeap y then (29 : Int) else 28) = 28 + if LeapYear y then 1 else 0 := by
    by_cases h : LeapYear y
    · rw [if_pos ((isLeap_iff y).2 h), if_pos h]
      rfl
    · rw [if_neg (mt (isLeap_iff y).1 h), if_neg h]
      rfl
  obtain ⟨hlow, hhigh⟩ := hm
  by_cases h : m = 2
  · subst h
    simp only [daysInMonth, monthLength, if_true, hleap, true_and]
    rfl
  · simp only [daysInMonth, monthLength, h, if_false, false_and]
    interval_cases m <;> first | rfl | exact absurd rfl h

theorem le_daysInMonth (y m : Int) : 28 ≤ daysInMonth y m := by
  unfold daysInMonth
  split_ifs <;> decide

/-! ## Valid moments -/

theorem fault?_eq_none_iff : t.fault? = none ↔ t.IsValid := by
  constructor
  · intro h
    unfold fault? at h
    simp only [Bool.or_eq_true, decide_eq_true_eq] at h
    split_ifs at h with hyear hmonth hday hhour hminute hsecond hmicro
    rw [daysInMonth_eq (by omega)] at hday
    exact ⟨⟨by omega, by omega, by omega⟩, ⟨by omega, by omega, by omega, by omega⟩⟩
  · rintro ⟨⟨hyear, hmonth, hday⟩, hhour, hminute, hsecond, hmicro⟩
    rw [← daysInMonth_eq hmonth] at hday
    unfold fault?
    simp only [Bool.or_eq_true, decide_eq_true_eq]
    rw [if_neg (by omega), if_neg (by omega), if_neg (by omega), if_neg (by omega), if_neg (by omega),
      if_neg (by omega), if_neg (by omega)]

theorem IsValid.bounds (h : t.IsValid) : ∀ n ∈ t.parts, 0 ≤ n ∧ n < 1000000 := by
  obtain ⟨⟨hyear, hmonth, hday⟩, hhour, hminute, hsecond, hmicro⟩ := h
  have hlength : monthLength t.year t.month ≤ 31 := by
    rw [← daysInMonth_eq hmonth]
    unfold daysInMonth
    split_ifs <;> decide
  simp only [parts, forall_mem_cons]
  exact ⟨by omega, by omega, by omega, by omega, by omega, by omega, by omega, nofun⟩

theorem mem_parts_ofComponents {parts : List Int} (hlength : parts.length ≤ 7) {n : Int}
    (hn : n ∈ parts) : n ∈ (ofComponents parts).parts := by
  obtain ⟨i, hi, rfl⟩ := mem_iff_getElem.1 hn
  have hget : parts[i] = parts.getD i 0 := by rw [getD_eq_getElem _ _ hi]
  rw [hget]
  have hi : i < 7 := by omega
  simp only [Moment.parts, ofComponents]
  interval_cases i <;> simp

theorem componentFault?_eq_none {n : Int} (h : 0 ≤ n ∧ n < 1000000) : componentFault? n = none := by
  have hwide : Int.pow 2 63 = 9223372036854775808 := rfl
  have hlarge : Int.pow 2 31 = 2147483648 := rfl
  unfold componentFault?
  simp only [hwide, hlarge, Bool.or_eq_true, decide_eq_true_eq]
  rw [if_neg (by omega), if_neg (by omega), if_neg (by omega)]

/-- Seven numbers at most make a moment exactly if it is valid. -/
theorem ofParts?_eq_ok_iff {parts : List Int} (hlength : parts.length ≤ 7) :
    ofParts? parts = .ok t ↔ (ofComponents parts).IsValid ∧ t = ofComponents parts := by
  constructor
  · intro h
    cases hfind : parts.findSome? componentFault? with
    | some f =>
      rw [ofParts?, hfind] at h
      cases h
    | none =>
      rw [ofParts?, hfind] at h
      dsimp only at h
      split at h
      · cases h
      · rename_i hnone
        exact ⟨fault?_eq_none_iff.1 hnone, (Except.ok.inj h).symm⟩
  · rintro ⟨hvalid, rfl⟩
    have hfind : parts.findSome? componentFault? = none := findSome?_eq_none_iff.2 fun n hn =>
      componentFault?_eq_none (hvalid.bounds n (mem_parts_ofComponents hlength hn))
    have hnone := fault?_eq_none_iff.2 hvalid
    unfold ofComponents at hnone ⊢
    rw [ofParts?, hfind]
    dsimp only
    rw [hnone]

/-! ## Counting days -/

theorem daysBeforeYear_succ (y : Int) :
    daysBeforeYear (y + 1) = daysBeforeYear y + if isLeap y then 366 else 365 := by
  by_cases h : LeapYear y
  · rw [if_pos ((isLeap_iff y).2 h)]
    unfold LeapYear at h
    unfold daysBeforeYear
    dsimp only
    omega
  · rw [if_neg (mt (isLeap_iff y).1 h)]
    unfold LeapYear at h
    unfold daysBeforeYear
    dsimp only
    omega

theorem daysBeforeMonth_thirteen (y : Int) :
    daysBeforeMonth y 13 = if isLeap y then 366 else 365 := by
  have hlengths : daysBeforeMonth y 13 =
      31 + daysInMonth y 2 + 31 + 30 + 31 + 30 + 31 + 31 + 30 + 31 + 30 + 31 := rfl
  have hsecond : daysInMonth y 2 = if isLeap y then 29 else 28 := rfl
  rw [hlengths, hsecond]
  split <;> rfl

theorem daysBeforeMonth_succ (hm : 1 ≤ m) :
    daysBeforeMonth y (m + 1).toNat = daysBeforeMonth y m.toNat + daysInMonth y m := by
  obtain ⟨k, rfl⟩ : ∃ k : Nat, m = k + 1 := ⟨(m - 1).toNat, by omega⟩
  rfl

theorem daysBeforeMonth_mono (y : Int) {m n : Nat} (h : m ≤ n) : daysBeforeMonth y m ≤ daysBeforeMonth y n := by
  refine monotone_nat_of_le_succ (fun k => ?_) h
  cases k with
  | zero => rfl
  | succ k =>
    change daysBeforeMonth y (k + 1) ≤ daysBeforeMonth y (k + 1) + daysInMonth y ↑(k + 1)
    have := le_daysInMonth y ↑(k + 1)
    omega

theorem dayNumber_nextDay (h : IsDay y m d) :
    dayNumber (nextDay y m d).1 (nextDay y m d).2.1 (nextDay y m d).2.2 = dayNumber y m d + 1 := by
  obtain ⟨-, hm, hd⟩ := h
  rw [← daysInMonth_eq hm] at hd
  unfold nextDay
  rw [← daysInMonth_eq hm]
  split_ifs with hday hmonth
  · unfold dayNumber
    dsimp only
    omega
  · have hsucc := daysBeforeMonth_succ (y := y) hm.1
    unfold dayNumber
    dsimp only
    omega
  · -- The last day of a year: all of its months have passed.
    obtain rfl : m = 12 := by omega
    have hmonths : daysBeforeMonth y 13 = daysBeforeMonth y (12 : Int).toNat + daysInMonth y 12 := rfl
    have hfirst : daysBeforeMonth (y + 1) (1 : Int).toNat = 0 := rfl
    have hyear := daysBeforeYear_succ y
    rw [daysBeforeMonth_thirteen] at hmonths
    unfold dayNumber
    dsimp only
    omega

theorem dayNumber_bounds (h : IsDay y m d) :
    daysBeforeYear y + daysBeforeMonth y m.toNat ≤ dayNumber y m d ∧
      dayNumber y m d < daysBeforeYear y + daysBeforeMonth y (m + 1).toNat := by
  obtain ⟨-, hm, hd⟩ := h
  rw [← daysInMonth_eq hm] at hd
  have hsucc := daysBeforeMonth_succ (y := y) hm.1
  unfold dayNumber
  omega

theorem dayNumber_lt_of_month {m' d' : Int} (h : IsDay y m d) (h' : IsDay y m' d') (hlt : m < m') :
    dayNumber y m d < dayNumber y m' d' := by
  have hmonth := daysBeforeMonth_mono y (by omega : (m + 1).toNat ≤ m'.toNat)
  have hbefore := (dayNumber_bounds h).2
  have hafter := (dayNumber_bounds h').1
  omega

theorem dayNumber_lt_of_year {y' m' d' : Int} (h : IsDay y m d) (h' : IsDay y' m' d') (hlt : y < y') :
    dayNumber y m d < dayNumber y' m' d' := by
  have hm := h.month
  have hlast := daysBeforeMonth_mono y (by omega : (m + 1).toNat ≤ 13)
  have hfirst := daysBeforeMonth_mono y' (by omega : 0 ≤ m'.toNat)
  have hbefore := (dayNumber_bounds h).2
  have hafter := (dayNumber_bounds h').1
  have hyears : daysBeforeYear (y + 1) ≤ daysBeforeYear y' := by
    unfold daysBeforeYear
    dsimp only
    omega
  rw [daysBeforeMonth_thirteen] at hlast
  rw [daysBeforeYear_succ] at hyears
  change 0 ≤ daysBeforeMonth y' m'.toNat at hfirst
  omega

/-! ## Counting milliseconds -/

/-- The milliseconds of the time of a day. -/
def millisOfDay (t : Moment) : Int :=
  ((t.hour * 60 + t.minute) * 60 + t.second) * 1000 + t.microsecond / 1000

/-- The milliseconds of a moment are those of its days from 1970 on and of the time of its day. -/
theorem epochMillis_eq (t : Moment) : t.epochMillis =
    (dayNumber t.year t.month t.day - dayNumber 1970 1 1) * 86400000 + t.millisOfDay := by
  simp only [epochMillis, since, Interval.normal, epoch, millisOfDay]
  omega

theorem IsValid.millisOfDay_bounds (h : t.IsValid) : 0 ≤ t.millisOfDay ∧ t.millisOfDay < 86400000 := by
  obtain ⟨-, hhour, hminute, hsecond, hmicro⟩ := h
  unfold millisOfDay
  omega

theorem cons_le_cons {a b : Int} {l m : List Int} : a :: l ≤ b :: m ↔ a < b ∨ a = b ∧ l ≤ m := by
  rw [le_iff_lt_or_eq, le_iff_lt_or_eq, cons_lt_cons_iff, List.cons.injEq]
  tauto

/-- Milliseconds are counted in the order of the components. -/
theorem epochMillis_mono (ht : t.IsValid) (hu : u.IsValid) (hle : t.parts ≤ u.parts) :
    t.epochMillis ≤ u.epochMillis := by
  have hmillis := ht.millisOfDay_bounds
  have hmillis' := hu.millisOfDay_bounds
  -- A day that is counted before another ends before the other starts.
  have hday : dayNumber t.year t.month t.day < dayNumber u.year u.month u.day →
      t.epochMillis ≤ u.epochMillis := by
    intro hlt
    rw [epochMillis_eq, epochMillis_eq]
    omega
  simp only [parts, cons_le_cons] at hle
  rcases hle with hyear | ⟨hyear, hmonth | ⟨hmonth, hdate | ⟨hdate, hle⟩⟩⟩
  · exact hday (dayNumber_lt_of_year ht.day hu.day hyear)
  · refine hday ?_
    have hbefore := ht.day
    rw [hyear] at hbefore ⊢
    exact dayNumber_lt_of_month hbefore hu.day hmonth
  · refine hday ?_
    rw [hyear, hmonth]
    unfold dayNumber
    omega
  · have hsame : dayNumber t.year t.month t.day = dayNumber u.year u.month u.day := by
      rw [hyear, hmonth, hdate]
    obtain ⟨hhour, hminute, hsecond, hmicro⟩ := ht.time
    obtain ⟨hhour', hminute', hsecond', hmicro'⟩ := hu.time
    have hle : t.millisOfDay ≤ u.millisOfDay := by
      unfold millisOfDay
      omega
    rw [epochMillis_eq, epochMillis_eq]
    omega

end Moment

/-! ## Dates that are written -/

/-- The components that are left out are zeros at the end, after three components at least, and no zero
is left at the end after them. -/
theorem Python.exists_zeros (parts : List Int) (hlength : 3 ≤ parts.length) :
    ∃ zeros, parts = shortened parts ++ List.replicate zeros 0 ∧ 3 ≤ (shortened parts).length ∧
      (3 < (shortened parts).length → (shortened parts).getLast? ≠ some 0) := by
  let time := (parts.drop 3).reverse
  have hzeros : time.takeWhile (· = 0) = List.replicate (time.takeWhile (· = 0)).length 0 :=
    eq_replicate_iff.2 ⟨rfl, fun n hn => by simpa using mem_takeWhile_imp hn⟩
  have htake : (parts.take 3).length = 3 := by rw [length_take]; omega
  refine ⟨(time.takeWhile (· = 0)).length, ?_, ?_, fun hlong => ?_⟩
  · calc parts = parts.take 3 ++ time.reverse := by
          rw [reverse_reverse, take_append_drop]
      _ = parts.take 3 ++ ((time.dropWhile (· = 0)).reverse ++ (time.takeWhile (· = 0)).reverse) := by
          rw [← reverse_append, takeWhile_append_dropWhile]
      _ = shortened parts ++ List.replicate (time.takeWhile (· = 0)).length 0 := by
          rw [hzeros, reverse_replicate, length_replicate, ← append_assoc]
          rfl
  · rw [shortened, length_append, htake]
    omega
  · -- What is left of the time ends in what stopped the zeros from being dropped.
    rw [shortened, length_append, htake] at hlong
    have hnot := head?_dropWhile_not (· = 0) time
    cases hdrop : time.dropWhile (· = 0) with
    | nil =>
      rw [hdrop] at hlong
      simp at hlong
    | cons n rest =>
      rw [hdrop] at hnot
      rw [shortened, hdrop, reverse_cons, ← append_assoc, getLast?_concat]
      simpa using hnot

namespace Moment

theorem ofComponents_append_zeros (parts : List Int) (zeros : Nat) :
    ofComponents (parts ++ List.replicate zeros 0) = ofComponents parts := by
  have hget : ∀ i, (parts ++ List.replicate zeros 0).getD i 0 = parts.getD i 0 := by
    intro i
    rw [getD_eq_getElem?_getD, getD_eq_getElem?_getD]
    by_cases hi : i < parts.length
    · rw [getElem?_append_left hi]
    · rw [getElem?_append_right (by omega), getElem?_eq_none (by omega : parts.length ≤ i),
        getElem?_replicate]
      split <;> rfl
  simp only [ofComponents, hget]

theorem moment_eq_ok_iff {parts : List Int} (hlow : 3 ≤ parts.length) (hhigh : parts.length ≤ 7)
    (t : Moment) : Literal.moment parts = .ok t ↔
      (ofComponents parts).IsValid ∧ t = ofComponents parts := by
  rw [← ofParts?_eq_ok_iff hhigh, Literal.moment, if_pos (by simp [hlow, hhigh])]
  cases ofParts? parts with
  | ok u => exact ⟨fun h => by cases h; rfl, fun h => by cases h; rfl⟩
  | error fault => exact ⟨nofun, nofun⟩

theorem isValid_of_moment {parts : List Int} {t : Moment} (h : Literal.moment parts = .ok t) :
    t.IsValid := by
  have hlength : 3 ≤ parts.length ∧ parts.length ≤ 7 := by
    unfold Literal.moment at h
    split at h
    · rename_i hlength
      simpa using hlength
    · cases h
  obtain ⟨hvalid, rfl⟩ := (moment_eq_ok_iff hlength.1 hlength.2 t).1 h
  exact hvalid

theorem moment_shortened {t : Moment} (h : t.IsValid) :
    Literal.moment (Python.shortened t.parts) = .ok t := by
  obtain ⟨zeros, hparts, hlow, -⟩ := Python.exists_zeros t.parts (Nat.le_add_left 3 4)
  have hlength : (Python.shortened t.parts).length + zeros = 7 := by
    have := congrArg List.length hparts
    rw [length_append, length_replicate] at this
    exact this.symm
  have hwhole : ofComponents (Python.shortened t.parts) = t := by
    rw [← ofComponents_append_zeros _ zeros, ← hparts]
    rfl
  exact (moment_eq_ok_iff hlow (by omega) t).2 ⟨hwhole.symm ▸ h, hwhole.symm⟩

end Moment

end QueryScribe
