import Mathlib.Data.List.Induction
import QueryScribe.Usage

/-!
# Records of uses

Whatever is written records its uses one after the other. From the start, a run of records leaves
something under a code iff one of them concerns it (`isSome_get?_writeAll`), and the names under it
in the order in which they came (`names_writeAll`). Both only look at the records one by one, so what
several runs leave together can be told from what each leaves alone. No record takes back another.
-/

namespace QueryScribe

open List

theorem lookup_cons_eq_ite {κ ω : Type} [DecidableEq κ] (k k' : κ) (value : ω) (rest : List (κ × ω)) :
    ((k', value) :: rest).lookup k = if k = k' then some value else rest.lookup k := by
  rw [lookup_cons]
  by_cases h : k = k'
  · simp [h]
  · simp [h, beq_eq_false_iff_ne.2 h]

/-- What is recorded at once: the use of a code, or of a name under a code. -/
inductive Record
  | touch (code : Int)
  | add (code : Int) (name : String)
deriving DecidableEq, Repr

namespace Record

/-- A record that leaves something under a code. Under the codes of families only names are
left. -/
def Concerns (code : Int) : Record → Prop
  | touch c => c = code ∧ ¬ Family.isCode c
  | add c _ => c = code

/-- The name that a record leaves under a code. -/
def name? (code : Int) : Record → Option String
  | touch _ => none
  | add c name => if c = code then some name else none

end Record

namespace Usage

/-- The usage after a record. -/
def write (u : Usage) : Record → Usage
  | .touch code => u.touch code
  | .add code name => u.add code name

/-- The usage after some records. -/
def writeAll (u : Usage) (records : List Record) : Usage := records.foldl write u

/-- The names recorded under a code. -/
def names (u : Usage) (code : Int) : List String :=
  match u.get? code with
  | some (.names names) => names
  | _ => []

@[simp]
theorem writeAll_nil (u : Usage) : u.writeAll [] = u := rfl

theorem writeAll_append (u : Usage) (records more : List Record) :
    u.writeAll (records ++ more) = (u.writeAll records).writeAll more :=
  foldl_append

/-! ## The entries -/

variable {code : Int}

theorem lookup_eq_none_of_lt {c : Int} {use : Use} {rest : List (Int × Use)}
    (h : Ascending ((c, use) :: rest)) (hlt : code < c) : ((c, use) :: rest).lookup code = none := by
  refine lookup_eq_none_iff.2 fun e he => bne_iff_ne.2 ?_
  rcases mem_cons.1 he with rfl | he
  · exact Int.ne_of_lt hlt
  · exact Int.ne_of_lt (Int.lt_trans hlt ((pairwise_cons.1 h).1 e he))

theorem lookup_alter {f : Option Use → Use} {entries : List (Int × Use)} (h : Ascending entries)
    (c : Int) :
    (alter code f entries).lookup c =
      if c = code then some (f (entries.lookup code)) else entries.lookup c := by
  fun_induction alter code f entries with
  | case1 => rw [lookup_cons_eq_ite]; rfl
  | case2 c' use rest hlt => rw [lookup_cons_eq_ite, lookup_eq_none_of_lt h hlt]
  | case3 use rest hlt =>
    rw [lookup_cons_eq_ite, lookup_cons_eq_ite, lookup_cons_eq_ite, if_pos rfl]
    split <;> rfl
  | case4 c' use rest hlt hne ih =>
    rw [lookup_cons_eq_ite, ih (pairwise_cons.1 h).2, lookup_cons_eq_ite, lookup_cons_eq_ite,
      if_neg hne]
    by_cases hc : c = c'
    · simp [hc, Ne.symm hne]
    · simp [hc]

theorem get?_touch (u : Usage) (code c : Int) :
    (u.touch code).get? c =
      if c = code ∧ ¬ Family.isCode code then some ((u.get? code).getD .touched) else u.get? c := by
  unfold touch
  by_cases hcode : Family.isCode code
  · simp [hcode]
  · rw [if_neg hcode, get?, lookup_alter u.ascending]
    by_cases hc : c = code <;> simp [hc, hcode, get?]

theorem get?_add (u : Usage) (code : Int) (name : String) (c : Int) :
    (u.add code name).get? c =
      if c = code then some (.names (u.names code ++ [name])) else u.get? c := by
  unfold add
  rw [get?, lookup_alter u.ascending]
  split
  · simp only [names, get?]
    cases u.entries.lookup code with
    | none => rfl
    | some use =>
      cases use with
      | touched => rfl
      | names names => rfl
  · rfl

/-! ## Runs of records -/

theorem isSome_get?_write {u : Usage} (h : (u.get? code).isSome) (r : Record) :
    ((u.write r).get? code).isSome := by
  cases r with
  | touch c =>
    rw [write, get?_touch]
    split
    · rfl
    · exact h
  | add c name =>
    rw [write, get?_add]
    split
    · rfl
    · exact h

theorem names_write (u : Usage) (r : Record) (code : Int) :
    (u.write r).names code = u.names code ++ (r.name? code).toList := by
  cases r with
  | touch c =>
    simp only [write, names, get?_touch, Record.name?, Option.toList_none, append_nil]
    by_cases h : code = c ∧ ¬ Family.isCode c
    · rw [if_pos h, h.1]
      cases u.get? c with
      | none => rfl
      | some use => rfl
    · rw [if_neg h]
  | add c name =>
    rw [write, names, get?_add]
    by_cases h : c = code
    · simp [h, Record.name?]
    · simp [h, Ne.symm h, Record.name?, names]

theorem isSome_get?_writeAll_of_isSome {u : Usage} (h : (u.get? code).isSome) (records : List Record) :
    ((u.writeAll records).get? code).isSome := by
  induction records generalizing u with
  | nil => exact h
  | cons r records ih => exact ih (isSome_get?_write h r)

theorem names_writeAll_append (u : Usage) (records : List Record) (code : Int) :
    (u.writeAll records).names code = u.names code ++ records.filterMap (·.name? code) := by
  induction records generalizing u with
  | nil => exact (append_nil _).symm
  | cons r records ih =>
    change ((u.write r).writeAll records).names code = _
    rw [ih, names_write, append_assoc]
    cases h : r.name? code with
    | none => rw [filterMap_cons_none h]; rfl
    | some name => rw [filterMap_cons_some h]; rfl

theorem isSome_get?_writeAll (records : List Record) (code : Int) :
    ((({} : Usage).writeAll records).get? code).isSome ↔ ∃ r ∈ records, r.Concerns code := by
  induction records using List.reverseRecOn with
  | nil => simp [get?]
  | append_singleton records r ih =>
    simp only [mem_append, mem_singleton, or_and_right, exists_or, exists_eq_left, ← ih,
      writeAll_append]
    change ((write _ r).get? code).isSome ↔ _
    cases r with
    | touch c =>
      rw [write, get?_touch, Record.Concerns]
      split
      · rename_i h; exact ⟨fun _ => .inr ⟨h.1.symm, h.2⟩, fun _ => rfl⟩
      · rename_i h
        exact ⟨.inl, Or.rec id fun h' => absurd ⟨h'.1.symm, h'.2⟩ h⟩
    | add c name =>
      rw [write, get?_add, Record.Concerns]
      split
      · rename_i h; simp [h]
      · rename_i h
        exact ⟨.inl, Or.rec id fun h' => absurd h'.symm h⟩

theorem names_writeAll (records : List Record) (code : Int) :
    (({} : Usage).writeAll records).names code = records.filterMap (·.name? code) :=
  names_writeAll_append {} records code

end Usage

end QueryScribe
