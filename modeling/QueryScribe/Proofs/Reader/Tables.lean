import Mathlib.Data.List.Basic
import Mathlib.Data.Nat.Bitwise
import QueryScribe.Grammar.State

/-!
# What the tables say

The sets of the tables are bits of numbers. Here they are read back as what they stand for: the
categories that can begin in a state (`State.Begins`), the terminals on which it goes on
(`shifts_iff`), the items that come after a symbol (`mem_next_iff`) and the productions that are found
complete (`of_reduction?`). Proofs about the reader use these and never look at the bits.
-/

namespace QueryScribe

open List

theorem Terminal.ctorIdx_lt_count (t : Terminal) : t.ctorIdx < Terminal.count := by
  cases t <;> decide

theorem Rule.ctorIdx_lt_count (r : Rule) : r.ctorIdx < Rule.count := by
  cases r <;> decide

theorem Category.eq_of_code_eq {c d : Category} (h : c.code = d.code) : c = d := by
  cases c with
  | source => cases d <;> simp only [code] at h <;> first | rfl | omega
  | rule r =>
    have hr := r.ctorIdx_lt_count
    cases d with
    | source => simp only [code] at h; omega
    | rule r' =>
      have h : r.ctorIdx = r'.ctorIdx := Nat.add_left_cancel h
      rw [← Rule.ofNat_ctorIdx r, h, Rule.ofNat_ctorIdx]
    | run r' => simp only [code] at h; omega
  | run r =>
    cases d with
    | source => simp only [code] at h; omega
    | rule r' =>
      have hr' := r'.ctorIdx_lt_count
      simp only [code] at h
      omega
    | run r' =>
      have h : r.ctorIdx = r'.ctorIdx := Nat.add_left_cancel h
      rw [← Run.ofNat_ctorIdx r, h, Run.ofNat_ctorIdx]

theorem Symbol.eq_of_code_eq {x y : Symbol} (h : x.code = y.code) : x = y := by
  cases x with
  | terminal t =>
    have ht := t.ctorIdx_lt_count
    cases y with
    | terminal t' =>
      have h : t.ctorIdx = t'.ctorIdx := h
      rw [← Terminal.ofNat_ctorIdx t, h, Terminal.ofNat_ctorIdx]
    | category c => simp only [code] at h; omega
  | category c =>
    cases y with
    | terminal t' =>
      have ht' := t'.ctorIdx_lt_count
      simp only [code] at h
      omega
    | category d => rw [Category.eq_of_code_eq (Nat.add_left_cancel h)]

theorem Category.all_getElem?_code (c : Category) : Category.all[c.code]? = some c := by
  cases c with
  | source => rfl
  | rule r => cases r <;> rfl
  | run r => cases r <;> rfl

theorem Symbol.code_lt (x : Symbol) : x.code < Terminal.count + Category.count := by
  cases x with
  | terminal t =>
    have ht := t.ctorIdx_lt_count
    exact Nat.lt_of_lt_of_le ht (Nat.le_add_right _ _)
  | category c =>
    obtain ⟨hlt, -⟩ := List.getElem?_eq_some_iff.1 c.all_getElem?_code
    exact Nat.add_lt_add_left hlt _

namespace Analysis

theorem testBit_bits (codes : List Nat) (i : Nat) : (bits codes).testBit i ↔ i ∈ codes := by
  -- The fold starts from the empty set; with any other set its members are added.
  have hfold (set : Nat) : (codes.foldl (fun set i => set ||| 1 <<< i) set).testBit i ↔
      set.testBit i ∨ i ∈ codes := by
    induction codes generalizing set with
    | nil => simp
    | cons j codes ih =>
      rw [foldl_cons, ih, Nat.testBit_or, Bool.or_eq_true, Nat.one_shiftLeft,
        Nat.testBit_two_pow, decide_eq_true_iff, mem_cons, or_assoc, eq_comm (a := j)]
  rw [bits, hfold]
  simp

theorem getD_tabulate (codes : Category → List Nat) (c : Category) :
    (tabulate codes).getD c.code 0 = bits (codes c) := by
  rw [tabulate, Array.getD_eq_getD_getElem?, getElem?_toArray, getElem?_map,
    c.all_getElem?_code]
  rfl

variable {c : Category} {t : Terminal} {p : Production}

theorem testBit_corners {d : Category} :
    (source.corners.getD c.code 0).testBit d.code ↔ d ∈ c.corners := by
  have hentry : source.corners.getD c.code 0 = bits (c.corners.map (·.code)) := getD_tabulate _ c
  rw [hentry, testBit_bits, mem_map]
  constructor
  · rintro ⟨e, he, hcode⟩
    rwa [← Category.eq_of_code_eq hcode]
  · exact fun h => ⟨d, h, rfl⟩

theorem ctorIdx_mem_map {ts : List Terminal} :
    t.ctorIdx ∈ ts.map (·.ctorIdx) ↔ t ∈ ts := by
  constructor
  · intro h
    obtain ⟨u, hu, hidx⟩ := mem_map.1 h
    rwa [← Terminal.ofNat_ctorIdx t, ← hidx, Terminal.ofNat_ctorIdx]
  · exact fun h => mem_map.2 ⟨t, h, rfl⟩

theorem starts_iff : source.starts c t ↔ t ∈ c.starters := by
  have hentry : source.starters.getD c.code 0 = bits (c.starters.map (·.ctorIdx)) :=
    getD_tabulate _ c
  rw [starts, hentry, testBit_bits, ctorIdx_mem_map]

theorem follows_iff :
    source.follows c t ↔ t ∈ c.followers := by
  have hentry : source.followers.getD c.code 0 = bits (c.followers.map (·.ctorIdx)) :=
    getD_tabulate _ c
  rw [follows, hentry, testBit_bits, ctorIdx_mem_map]

theorem mem_openers {x : Symbol} (h : p ∈ source.openers.getD x.code []) :
    p ∈ productions ∧ ∃ rest, p.rhs = x :: rest := by
  have hopeners : p ∈ openersOf productions x.code := by
    unfold source at h
    dsimp only at h
    rw [Array.getD_eq_getD_getElem?, getElem?_toArray, getElem?_map] at h
    cases hcode : (List.range (Terminal.count + Category.count))[x.code]? with
    | none => rw [hcode] at h; cases h
    | some n =>
      obtain ⟨hlt, hn⟩ := List.getElem?_eq_some_iff.1 hcode
      rw [getElem_range] at hn
      rw [hcode, ← hn] at h
      exact h
  obtain ⟨hmem, hcode⟩ := mem_filter.1 hopeners
  refine ⟨hmem, ?_⟩
  split at hcode
  · cases hcode
  · rename_i y rest hrhs
    rw [← Symbol.eq_of_code_eq (beq_iff_eq.1 hcode)]
    exact ⟨rest, hrhs⟩

theorem mem_empties (h : p ∈ source.empties) : p ∈ productions ∧ p.rhs = [] := by
  obtain ⟨hmem, hempty⟩ := mem_filter.1 h
  exact ⟨hmem, isEmpty_iff.1 hempty⟩

theorem mem_openers_of_rhs {x : Symbol} {rest : List Symbol} (hp : p ∈ productions)
    (hrhs : p.rhs = x :: rest) : p ∈ source.openers.getD x.code [] := by
  have hentry : source.openers.getD x.code [] = openersOf productions x.code := by
    unfold source
    dsimp only
    rw [Array.getD_eq_getD_getElem?, getElem?_toArray, getElem?_map,
      getElem?_range x.code_lt]
    rfl
  rw [hentry]
  refine mem_filter.2 ⟨hp, ?_⟩
  rw [hrhs]
  exact beq_self_eq_true _

end Analysis

namespace State

variable {s : State} {t : Terminal}

/-- A category can begin in a state: it is a corner of one that is expected there. -/
def Begins (s : State) (d : Category) : Prop :=
  ∃ i ∈ s, ∃ c rest, i.rest = .category c :: rest ∧ d ∈ c.corners

theorem testBit_foldl {α : Type} {f : Nat → α → Nat} {P : α → Prop} {i : Nat}
    (hf : ∀ set a, (f set a).testBit i ↔ set.testBit i ∨ P a) (as : List α) (set : Nat) :
    (as.foldl f set).testBit i ↔ set.testBit i ∨ ∃ a ∈ as, P a := by
  induction as generalizing set with
  | nil => simp
  | cons a as ih => rw [foldl_cons, ih, hf, exists_mem_cons_iff, or_assoc]

theorem testBit_corners {d : Category} :
    (s.corners .source).testBit d.code ↔ s.Begins d := by
  refine (testBit_foldl (P := fun i => ∃ c rest, i.rest = .category c :: rest ∧ d ∈ c.corners)
    (fun set i => ?_) s 0).trans (by simp [Begins])
  split
  · rename_i c rest hrest
    rw [Nat.testBit_or, Bool.or_eq_true, Analysis.testBit_corners]
    simp [hrest]
  · rename_i hrest
    refine (or_iff_left ?_).symm
    rintro ⟨c, rest, h, -⟩
    exact hrest c rest h

theorem shifts_iff : s.shifts .source t ↔ ∃ i ∈ s,
    (∃ rest, i.rest = .terminal t :: rest) ∨ ∃ c rest, i.rest = .category c :: rest ∧ t ∈ c.starters := by
  rw [shifts, any_eq_true]
  refine exists_congr fun i => and_congr_right fun _ => ?_
  split
  · rename_i hrest
    simp [hrest]
  · rename_i u rest hrest
    rw [hrest, beq_iff_eq]
    constructor
    · rintro rfl
      exact .inl ⟨rest, rfl⟩
    · rintro (⟨_, h⟩ | ⟨_, _, h, -⟩)
      · exact Symbol.terminal.inj (List.cons.inj h).1
      · cases h
  · rename_i c rest hrest
    rw [Analysis.starts_iff]
    simp [hrest]

/-- What comes after a symbol: the productions that expected it, and those that begin with it where
they can begin. -/
theorem mem_next_iff {x : Symbol} {i : Item} : i ∈ s.next .source x ↔
    (⟨i.production, x :: i.rest⟩ : Item) ∈ s ∨
      (i.production ∈ productions ∧ i.production.rhs = x :: i.rest ∧ s.Begins i.production.lhs) := by
  constructor
  · intro h
    rcases mem_append.1 h with h | h
    · obtain ⟨j, hj, hadvance⟩ := mem_filterMap.1 h
      unfold Item.advance at hadvance
      split at hadvance
      · cases hadvance
      · rename_i y rest hrest
        split at hadvance
        · rename_i hxy
          cases hadvance
          subst hxy
          rw [← hrest]
          exact .inl hj
        · cases hadvance
    · obtain ⟨p, hp, hopen⟩ := mem_filterMap.1 h
      split at hopen
      · rename_i hbit
        cases hopen
        obtain ⟨hmem, rest, hrhs⟩ := Analysis.mem_openers hp
        exact .inr ⟨hmem, by simp [hrhs], testBit_corners.1 hbit⟩
      · cases hopen
  · rintro (h | ⟨hp, hrhs, hbegins⟩)
    · refine mem_append_left _ (mem_filterMap.2 ⟨_, h, ?_⟩)
      simp [Item.advance]
    · refine mem_append_right _
        (mem_filterMap.2 ⟨i.production, Analysis.mem_openers_of_rhs hp hrhs, ?_⟩)
      rw [if_pos (testBit_corners.2 hbegins), hrhs]
      rfl

/-- A production that is found complete is under way with nothing left, or consists of nothing and can
begin here. In both cases the terminal can follow its category. -/
theorem of_reduction? {p : Production} (h : s.reduction? .source t = some p) :
    t ∈ p.lhs.followers ∧
      (⟨p, []⟩ ∈ s ∨ (p ∈ productions ∧ p.rhs = [] ∧ s.Begins p.lhs)) := by
  unfold reduction? at h
  split at h
  · rename_i i hfind
    cases h
    have hcond := find?_some hfind
    simp only [Bool.and_eq_true, List.isEmpty_iff] at hcond
    obtain ⟨hrest, hfollows⟩ := hcond
    refine ⟨Analysis.follows_iff.1 hfollows, .inl ?_⟩
    rw [← hrest]
    exact mem_of_find?_eq_some hfind
  · obtain ⟨hp, hrhs⟩ := Analysis.mem_empties (mem_of_find?_eq_some h)
    have hcond := find?_some h
    simp only [Bool.and_eq_true] at hcond
    exact ⟨Analysis.follows_iff.1 hcond.1, .inr ⟨hp, hrhs, testBit_corners.1 hcond.2⟩⟩

end State

end QueryScribe
