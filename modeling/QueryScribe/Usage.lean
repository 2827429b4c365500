/-!
# What a compile uses

Writing a type records its code; writing a query helper records its name under the code of its
family. The record is kept in ascending order of the codes, and names in the order of their use. The
codes of helper families only ever hold names.
-/

namespace QueryScribe

/-- What is recorded under a code: that it was used, or the names used under it. -/
inductive Use
  | touched
  | names (names : List String)
deriving DecidableEq, Repr

/-- The codes of the families of helpers. -/
inductive Family
  | filters | aggregates | accumulators | projections | sorts | geojson | model
deriving DecidableEq, Repr

/-- The code under which the helpers of a family are recorded. -/
def Family.code : Family → Int
  | filters => 300 | aggregates => 301 | accumulators => 302 | projections => 303 | sorts => 304
  | geojson => 305 | model => 306

/-- Whether a code belongs to a family of helpers. -/
def Family.isCode (code : Int) : Bool := 300 ≤ code && code ≤ 306

namespace Usage

/-- The codes of entries ascend. -/
def Ascending (entries : List (Int × Use)) : Prop :=
  entries.Pairwise fun e e' => e.1 < e'.1

/-- Changes what is recorded under a code. -/
def alter (code : Int) (f : Option Use → Use) : List (Int × Use) → List (Int × Use)
  | [] => [(code, f none)]
  | (c, use) :: rest =>
    if code < c then (code, f none) :: (c, use) :: rest
    else if code = c then (c, f (some use)) :: rest
    else (c, use) :: alter code f rest

/-- Changing an entry leaves the others where they are. -/
theorem mem_alter {code : Int} {f : Option Use → Use} {entries : List (Int × Use)} {e : Int × Use}
    (h : e ∈ alter code f entries) : e.1 = code ∨ e ∈ entries := by
  fun_induction alter code f entries with
  | case1 => exact .inl (by rw [List.mem_singleton.1 h])
  | case2 c use rest hlt =>
    rcases List.mem_cons.1 h with rfl | h
    · exact .inl rfl
    · exact .inr h
  | case3 c use rest =>
    rcases List.mem_cons.1 h with rfl | h
    · exact .inl rfl
    · exact .inr (List.mem_cons_of_mem _ h)
  | case4 c use rest hlt hne ih =>
    rcases List.mem_cons.1 h with rfl | h
    · exact .inr List.mem_cons_self
    · exact (ih h).imp_right (List.mem_cons_of_mem _)

theorem ascending_nil : Ascending [] := .nil

/-- Changing an entry keeps the order. -/
theorem Ascending.alter {code : Int} {f : Option Use → Use} {entries : List (Int × Use)}
    (h : Ascending entries) : Ascending (alter code f entries) := by
  fun_induction Usage.alter code f entries with
  | case1 => exact List.pairwise_singleton _ _
  | case2 c use rest hlt =>
    refine List.pairwise_cons.2 ⟨fun e he => ?_, h⟩
    rcases List.mem_cons.1 he with rfl | he
    · exact hlt
    · exact Int.lt_trans hlt ((List.pairwise_cons.1 h).1 e he)
  | case3 c use rest => exact List.pairwise_cons.2 (List.pairwise_cons.1 h)
  | case4 c use rest hlt hne ih =>
    obtain ⟨hhead, htail⟩ := List.pairwise_cons.1 h
    refine List.pairwise_cons.2 ⟨fun e he => ?_, ih htail⟩
    rcases mem_alter he with heq | he
    · omega
    · exact hhead e he

end Usage

/-- The codes used, in ascending order. -/
structure Usage where
  entries : List (Int × Use) := []
  ascending : Usage.Ascending entries := by exact Usage.ascending_nil
deriving DecidableEq, Repr

namespace Usage

/-- Records the use of a code. Names already recorded under it stay. -/
def touch (u : Usage) (code : Int) : Usage :=
  if Family.isCode code then u
  else ⟨alter code (fun use? => use?.getD .touched) u.entries, u.ascending.alter⟩

/-- Records the use of a name under a code. -/
def add (u : Usage) (code : Int) (name : String) : Usage :=
  ⟨alter code (fun
    | some (.names names) => .names (names ++ [name])
    | _ => .names [name]) u.entries, u.ascending.alter⟩

/-- What is recorded under a code. -/
def get? (u : Usage) (code : Int) : Option Use := u.entries.lookup code

end Usage

/-- How a target writes the imports of a compile. -/
structure ImportTable where
  /-- The fragment for a code, from the names recorded under it if any. -/
  fragment : Int → Option (Option (List String) → String)
  /-- The block of all fragments with their codes; by default each fragment once, in order. -/
  block : Option (List (Int × String) → String) := none
  separator : String := "\n"

namespace Usage

/-- The fragments that are not empty, in the order of their codes. -/
def fragments (table : ImportTable) (u : Usage) : List (Int × String) :=
  u.entries.filterMap fun (code, use) =>
    match table.fragment code with
    | none => none
    | some fragment =>
      let text := fragment (match use with
        | .touched => none
        | .names names => some names)
      if text.isEmpty then none else some (code, text)

/-- The first occurrences of some texts. -/
def firsts (texts : List String) : List String :=
  texts.foldl (fun seen text => if seen.contains text then seen else seen ++ [text]) []

/-- The import block. -/
def render (table : ImportTable) (u : Usage) : String :=
  let fragments := u.fragments table
  match table.block with
  | some block => block fragments
  | none => table.separator.intercalate (firsts (fragments.map (·.2)))

end Usage

end QueryScribe
