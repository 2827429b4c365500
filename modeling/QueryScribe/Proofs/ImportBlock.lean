import Mathlib.Data.List.Sort
import Mathlib.Data.String.Basic
import QueryScribe.Proofs.Recording
import QueryScribe.Target

/-!
# What the import block depends on

The import block is written from the codes that were used and the names under the codes of the
families. Codes are kept in order, so which of them came first does not show; what a table writes
for a code may depend on the names under it, but not on their order or number
(`ImportTable.Extensional`). So the block is the same after any two runs of records that use the same
codes and the same names (`render_eq_of_same_uses`).
-/

namespace QueryScribe

open List

namespace Record

/-- The code that is recorded. -/
def code : Record → Int
  | touch c => c
  | add c _ => c

variable {c : Int}

theorem concerns_iff_of_not_isCode (hc : ¬ Family.isCode c) (r : Record) :
    r.Concerns c ↔ r.code = c := by
  cases r with
  | touch c' =>
    refine ⟨And.left, fun h => ⟨h, fun hcode => hc ?_⟩⟩
    exact (show c' = c from h) ▸ hcode
  | add c' name => exact Iff.rfl

theorem concerns_iff_of_isCode (hc : Family.isCode c) (r : Record) :
    r.Concerns c ↔ ∃ name, r = add c name := by
  cases r with
  | touch c' =>
    refine ⟨fun h => absurd hc (h.1 ▸ h.2), ?_⟩
    rintro ⟨name, h⟩
    cases h
  | add c' name =>
    refine ⟨fun h => ⟨name, (show c' = c from h) ▸ rfl⟩, ?_⟩
    rintro ⟨name', h⟩
    cases h
    rfl

theorem exists_concerns_iff_of_isCode (hc : Family.isCode c) (records : List Record) :
    (∃ r ∈ records, r.Concerns c) ↔ ∃ name, add c name ∈ records := by
  simp only [concerns_iff_of_isCode hc]
  constructor
  · rintro ⟨_, hr, name, rfl⟩
    exact ⟨name, hr⟩
  · rintro ⟨name, hr⟩
    exact ⟨_, hr, name, rfl⟩

theorem name?_eq_some_iff {name : String} {r : Record} :
    r.name? c = some name ↔ r = add c name := by
  cases r with
  | touch c' => simp [name?]
  | add c' name' => simp [name?]

end Record

/-- The names of a use, if it has any. -/
def Use.names? : Use → Option (List String)
  | .touched => none
  | .names all => some all

namespace Usage

variable {u v : Usage} {code : Int} {table : ImportTable}

/-! ## Codes -/

theorem mem_codes_iff : code ∈ u.entries.map (·.1) ↔ (u.get? code).isSome := by
  rw [get?, Option.isSome_iff_ne_none, ne_eq, lookup_eq_none_iff]
  simp only [mem_map, bne_iff_ne, ne_eq, not_forall, not_not, exists_prop]
  exact exists_congr fun e => and_congr_right fun _ => eq_comm

theorem lookup_of_mem {entries : List (Int × Use)} (h : Ascending entries) {e : Int × Use}
    (he : e ∈ entries) : entries.lookup e.1 = some e.2 := by
  induction entries with
  | nil => cases he
  | cons first rest ih =>
    obtain ⟨hfirst, hrest⟩ := pairwise_cons.1 h
    rw [lookup_cons_eq_ite]
    rcases mem_cons.1 he with rfl | he
    · exact if_pos rfl
    · exact (if_neg (hfirst e he).ne').trans (ih hrest he)

theorem codes_eq (h : ∀ code, (u.get? code).isSome ↔ (v.get? code).isSome) :
    u.entries.map (·.1) = v.entries.map (·.1) := by
  have hascending : ∀ w : Usage, (w.entries.map (·.1)).Pairwise (· < ·) :=
    fun w => pairwise_map.2 w.ascending
  refine (hascending u).eq_of_mem_iff (hascending v) fun code => ?_
  rw [mem_codes_iff, mem_codes_iff, h]

/-! ## Fragments -/

/-- The fragment for a code, if there is one and it is not empty. -/
def fragment? (table : ImportTable) (u : Usage) (code : Int) : Option (Int × String) :=
  match u.get? code, table.fragment code with
  | some use, some fragment =>
    if (fragment use.names?).isEmpty then none else some (code, fragment use.names?)
  | _, _ => none

theorem fragments_eq (table : ImportTable) (u : Usage) :
    u.fragments table = (u.entries.map (·.1)).filterMap (u.fragment? table) := by
  rw [fragments, filterMap_map]
  refine filterMap_congr fun e he => ?_
  have hget : u.get? e.1 = some e.2 := lookup_of_mem u.ascending he
  simp only [Function.comp_apply, fragment?, hget]
  obtain ⟨code, use⟩ := e
  cases table.fragment code <;> cases use <;> rfl

end Usage

/-- A table that looks at the names under the codes of the families only, and at these as a set. -/
structure ImportTable.Extensional (table : ImportTable) : Prop where
  /-- Outside of the families the names do not matter. -/
  constant : ∀ {code : Int} {fragment : Option (List String) → String}, ¬ Family.isCode code →
    table.fragment code = some fragment → ∀ names names', fragment names = fragment names'
  /-- The order of names and their number do not matter. -/
  names : ∀ {code : Int} {fragment : Option (List String) → String}, Family.isCode code →
    table.fragment code = some fragment → ∀ names names' : List String,
      (∀ name, name ∈ names ↔ name ∈ names') → fragment (some names) = fragment (some names')

namespace Usage

variable {u v : Usage} {code : Int} {table : ImportTable}

/-- What may stand under a code in two usages so that no table can tell the difference. -/
def AlikeAt (code : Int) : Option Use → Option Use → Prop
  | none, none => True
  | some use, some use' => Family.isCode code → ∃ names names', use = .names names ∧
      use' = .names names' ∧ ∀ name : String, name ∈ names ↔ name ∈ names'
  | _, _ => False

theorem AlikeAt.isSome_iff {use? use?' : Option Use} (h : AlikeAt code use? use?') :
    use?.isSome ↔ use?'.isSome := by
  cases use? with
  | none =>
    cases use?' with
    | none => rfl
    | some use' => exact h.elim
  | some use =>
    cases use?' with
    | none => exact h.elim
    | some use' => rfl

theorem fragment?_eq_of_alikeAt (htable : table.Extensional)
    (h : AlikeAt code (u.get? code) (v.get? code)) : u.fragment? table code = v.fragment? table code := by
  unfold fragment?
  cases hu : u.get? code with
  | none =>
    cases hv : v.get? code with
    | none => rfl
    | some use' => rw [hu, hv] at h; exact h.elim
  | some use =>
    cases hv : v.get? code with
    | none => rw [hu, hv] at h; exact h.elim
    | some use' =>
      rw [hu, hv] at h
      cases hfragment : table.fragment code with
      | none => rfl
      | some fragment =>
        have htext : fragment use.names? = fragment use'.names? := by
          by_cases hfamily : Family.isCode code
          · obtain ⟨names, names', rfl, rfl, hnames⟩ := h hfamily
            exact htable.names hfamily hfragment names names' hnames
          · exact htable.constant hfamily hfragment _ _
        simp only [htext]

theorem render_eq_of_alikeAt (htable : table.Extensional)
    (h : ∀ code, AlikeAt code (u.get? code) (v.get? code)) : u.render table = v.render table := by
  have hcodes := fun code => (h code).isSome_iff
  have hfragments : u.fragments table = v.fragments table := by
    rw [fragments_eq, fragments_eq, codes_eq hcodes]
    exact filterMap_congr fun code _ => fragment?_eq_of_alikeAt htable (h code)
  rw [render, render, hfragments]

/-! ## Records -/

theorem get?_write_ne_touched (hcode : Family.isCode code) (h : u.get? code ≠ some .touched)
    (r : Record) : (u.write r).get? code ≠ some .touched := by
  cases r with
  | touch c =>
    rw [write, get?_touch, if_neg fun hc => hc.2 (hc.1 ▸ hcode)]
    exact h
  | add c name =>
    rw [write, get?_add]
    split
    · rintro ⟨⟩
    · exact h

/-- Under the code of a family nothing is left but names, whatever the records. -/
theorem get?_writeAll_ne_touched (hcode : Family.isCode code) (h : u.get? code ≠ some .touched)
    (records : List Record) : (u.writeAll records).get? code ≠ some .touched := by
  induction records generalizing u with
  | nil => exact h
  | cons r records ih => exact ih (get?_write_ne_touched hcode h r)

theorem get?_writeAll_of_isCode (hcode : Family.isCode code) {records : List Record} {use : Use}
    (h : (({} : Usage).writeAll records).get? code = some use) :
    use = .names (records.filterMap (·.name? code)) := by
  cases use with
  | touched => exact absurd h (get?_writeAll_ne_touched hcode (by simp [get?]) records)
  | names names =>
    rw [← names_writeAll, Usage.names, h]

/-- Two runs of records that concern the same codes outside of the families and add the same names in
them leave the like under all codes. -/
theorem alikeAt_writeAll {records records' : List Record}
    (hcodes : ∀ code, ¬ Family.isCode code →
      ((∃ r ∈ records, r.code = code) ↔ ∃ r ∈ records', r.code = code))
    (hnames : ∀ code, Family.isCode code →
      ∀ name, Record.add code name ∈ records ↔ Record.add code name ∈ records') (code : Int) :
    AlikeAt code ((({} : Usage).writeAll records).get? code)
      ((({} : Usage).writeAll records').get? code) := by
  have hsome : ((({} : Usage).writeAll records).get? code).isSome ↔
      ((({} : Usage).writeAll records').get? code).isSome := by
    rw [isSome_get?_writeAll, isSome_get?_writeAll]
    by_cases hcode : Family.isCode code
    · simp only [Record.exists_concerns_iff_of_isCode hcode, hnames code hcode]
    · simpa only [Record.concerns_iff_of_not_isCode hcode] using hcodes code hcode
  cases huse : (({} : Usage).writeAll records).get? code with
  | none =>
    cases huse' : (({} : Usage).writeAll records').get? code with
    | none => trivial
    | some use' => rw [huse, huse'] at hsome; simp at hsome
  | some use =>
    cases huse' : (({} : Usage).writeAll records').get? code with
    | none => rw [huse, huse'] at hsome; simp at hsome
    | some use' =>
      intro hcode
      refine ⟨_, _, get?_writeAll_of_isCode hcode huse, get?_writeAll_of_isCode hcode huse', ?_⟩
      intro name
      simp only [mem_filterMap, Record.name?_eq_some_iff, exists_eq_right, hnames code hcode]

end Usage

/-! ## The tables -/

namespace Java

variable {names : List String}

theorem mem_insertName {name other : String} :
    other ∈ insertName name names ↔ other = name ∨ other ∈ names := by
  fun_induction insertName name names with
  | case1 => simp
  | case2 => simp
  | case3 first rest => simp
  | case4 first rest hlt hne ih => simp [ih, or_left_comm]

theorem pairwise_insertName (name : String) (h : names.Pairwise (· < ·)) :
    (insertName name names).Pairwise (· < ·) := by
  fun_induction insertName name names with
  | case1 => exact pairwise_singleton _ _
  | case2 first rest hlt =>
    refine pairwise_cons.2 ⟨fun other hother => ?_, h⟩
    rcases mem_cons.1 hother with rfl | hother
    · exact hlt
    · exact hlt.trans ((pairwise_cons.1 h).1 other hother)
  | case3 first rest => exact h
  | case4 first rest hlt hne ih =>
    obtain ⟨hfirst, hrest⟩ := pairwise_cons.1 h
    refine pairwise_cons.2 ⟨fun other hother => ?_, ih hrest⟩
    rcases mem_insertName.1 hother with rfl | hother
    · exact lt_of_le_of_ne (not_lt.1 hlt) (Ne.symm hne)
    · exact hfirst other hother

theorem mem_sortedNames {name : String} :
    name ∈ sortedNames names ↔ name ∈ names := by
  induction names with
  | nil => rfl
  | cons first rest ih => rw [mem_cons, ← ih]; exact mem_insertName

theorem pairwise_sortedNames (names : List String) : (sortedNames names).Pairwise (· < ·) := by
  induction names with
  | nil => exact .nil
  | cons first rest ih => exact pairwise_insertName first ih

theorem sortedNames_congr {names' : List String} (h : ∀ name, name ∈ names ↔ name ∈ names') :
    sortedNames names = sortedNames names' := by
  refine (pairwise_sortedNames names).eq_of_mem_iff (pairwise_sortedNames names') fun name => ?_
  rw [mem_sortedNames, mem_sortedNames, h]

theorem helperImport?_of_not_isCode {code : Int} (h : ¬ Family.isCode code) :
    helperImport? code = none := by
  unfold helperImport?
  split <;> first | rfl | exact absurd rfl h

theorem extensional_imports : Target.java.imports.Extensional where
  constant {code fragment} hcode hfragment names names' := by
    change Java.fragment code = some fragment at hfragment
    unfold Java.fragment at hfragment
    rw [helperImport?_of_not_isCode hcode] at hfragment
    split at hfragment
    · cases hfragment; rfl
    · rename_i heq; cases heq
    · cases hfragment
  names {code fragment} hcode hfragment names names' h := by
    change Java.fragment code = some fragment at hfragment
    unfold Java.fragment at hfragment
    split at hfragment
    · cases hfragment; rfl
    · cases hfragment
      simp only [Option.getD_some, sortedNames_congr h]
    · cases hfragment

end Java

theorem Python.extensional_imports : Target.python.imports.Extensional := by
  have hconstant : ∀ {code : Int} {fragment : Option (List String) → String},
      Target.python.imports.fragment code = some fragment →
        ∀ names names', fragment names = fragment names' := by
    intro code fragment h names names'
    obtain ⟨text, -, rfl⟩ := Option.map_eq_some_iff.1 h
    rfl
  exact ⟨fun _ h => hconstant h, fun _ h _ _ _ => hconstant h _ _⟩

/-- The import block depends on what was used only. After any two runs of records from the start that
record the same codes outside of the families, by touching them or by adding names, and that add the
same names under each code of the families, both targets write the same block: neither the order nor
the number of the records matters, nor what is touched within the families. -/
theorem render_eq_of_same_uses (records records' : List Record)
    (hcodes : ∀ code, ¬ Family.isCode code →
      ((∃ r ∈ records, r.code = code) ↔ ∃ r ∈ records', r.code = code))
    (hnames : ∀ code, Family.isCode code →
      ∀ name, Record.add code name ∈ records ↔ Record.add code name ∈ records') :
    (({} : Usage).writeAll records).render Target.java.imports =
        (({} : Usage).writeAll records').render Target.java.imports ∧
      (({} : Usage).writeAll records).render Target.python.imports =
        (({} : Usage).writeAll records').render Target.python.imports :=
  ⟨Usage.render_eq_of_alikeAt Java.extensional_imports (Usage.alikeAt_writeAll hcodes hnames),
    Usage.render_eq_of_alikeAt Python.extensional_imports (Usage.alikeAt_writeAll hcodes hnames)⟩

/-- A code that is touched twice, and names that come in another order, beside a family that is
touched only. -/
theorem render_eq_of_reordered_names :
    (({} : Usage).writeAll [.add 300 "or", .touch 9, .add 300 "eq", .add 300 "or"]).render
        Target.java.imports =
      (({} : Usage).writeAll [.touch 301, .add 300 "eq", .touch 9, .add 300 "or", .touch 9]).render
        Target.java.imports := by
  refine (render_eq_of_same_uses _ _ (fun code hcode => ?_) fun code _ name => ?_).1
  · have hfilters : 300 ≠ code := fun h => hcode (h ▸ rfl)
    have haggregates : 301 ≠ code := fun h => hcode (h ▸ rfl)
    simp [Record.code, hfilters, haggregates]
  · simp only [List.mem_cons, Record.add.injEq, List.not_mem_nil, reduceCtorEq]
    tauto

end QueryScribe
