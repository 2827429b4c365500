import Std.Data.TreeMap.Lemmas
import QueryScribe.Proofs.Numbering
import QueryScribe.Render.Renderer

/-!
# What is noted of a node

The notes are read and changed node by node. The mark of a number is all that the notes hold under
it; each way of taking notes changes the marks in a way of its own (`mark_setType`, `mark_cast`) or
not at all, and loses nothing of them (`kept_withType`, `kept_cast`). What the notes tell of a tree
depends on the marks of its region only (`AgreeOn.type?`), which is all that the rest of the
development needs to know of them.
-/

namespace QueryScribe

/-- What is noted under one number: the type of the node, and the type it had before it was written
as another. -/
structure Mark where
  type : Option ValueType
  own : Option ValueType
deriving DecidableEq, Repr

namespace Mark

/-- The mark with a type, unless it has one. -/
def withType (m : Mark) (type : ValueType) : Mark := ⟨m.type.or (some type), m.own⟩

/-- The mark of a node that is written as another type. -/
def cast (m : Mark) (type own : ValueType) : Mark := ⟨some type, m.own.or (some own)⟩

/-- Nothing of a mark is lost: a node that has a type goes on to have one, and the type that it had
before it was written as another stays. -/
structure Kept (m m' : Mark) : Prop where
  type : m.type.isSome → m'.type.isSome
  own : ∀ type, m.own = some type → m'.own = some type

theorem Kept.refl (m : Mark) : m.Kept m := ⟨id, fun _ => id⟩

theorem Kept.trans {m m' m'' : Mark} (h : m.Kept m') (h' : m'.Kept m'') : m.Kept m'' :=
  ⟨fun htype => h'.type (h.type htype), fun type hown => h'.own type (h.own type hown)⟩

theorem kept_withType (m : Mark) (type : ValueType) : m.Kept (m.withType type) where
  type h := by rw [withType, Option.or_of_isSome h]; exact h
  own _ h := h

theorem kept_cast (m : Mark) (type own : ValueType) : m.Kept (m.cast type own) where
  type _ := rfl
  own _ h := by rw [cast, h]; rfl

end Mark

namespace Notes

/-- What is noted under a number. -/
def mark (n : Notes) (i : Nat) : Mark := ⟨n.types[i]?, n.ownTypes[i]?⟩

theorem mark_setType (n : Notes) (t : Tree) (type : ValueType) (i : Nat) :
    (n.setType t type).mark i = if i = t.id then (n.mark i).withType type else n.mark i := by
  simp only [setType, mark, Std.TreeMap.getElem?_insertIfNew, Std.LawfulEqCmp.compare_eq_iff_eq,
    Std.TreeMap.mem_iff_isSome_getElem?]
  by_cases h : i = t.id
  · subst h
    cases n.types[t.id]? <;> simp [Mark.withType]
  · simp [h, Ne.symm h]

theorem mark_cast (n : Notes) (t : Tree) (type own : ValueType) (i : Nat) :
    (n.cast t type own).mark i = if i = t.id then (n.mark i).cast type own else n.mark i := by
  simp only [cast, mark, Std.TreeMap.getElem?_insert, Std.TreeMap.getElem?_insertIfNew,
    Std.LawfulEqCmp.compare_eq_iff_eq, Std.TreeMap.mem_iff_isSome_getElem?]
  by_cases h : i = t.id
  · subst h
    cases n.ownTypes[t.id]? <;> simp [Mark.cast]
  · simp [h, Ne.symm h]

@[simp]
theorem mark_touch (n : Notes) (code : Int) (i : Nat) : (n.touch code).mark i = n.mark i := rfl

/-! ## Notes that agree on a region -/

/-- Notes that say the same under the numbers of a region. -/
def AgreeOn (U : Set Nat) (n m : Notes) : Prop := ∀ i ∈ U, n.mark i = m.mark i

namespace AgreeOn

variable {U V : Set Nat} {n m p : Notes}

theorem refl (U : Set Nat) (n : Notes) : AgreeOn U n n := fun _ _ => rfl

theorem symm (h : AgreeOn U n m) : AgreeOn U m n := fun i hi => (h i hi).symm

theorem mono (h : AgreeOn V n m) (hUV : U ⊆ V) : AgreeOn U n m := fun i hi => h i (hUV hi)

theorem setType (h : AgreeOn U n m) (t : Tree) (type : ValueType) :
    AgreeOn U (n.setType t type) (m.setType t type) := by
  intro i hi
  rw [mark_setType, mark_setType, h i hi]

theorem cast (h : AgreeOn U n m) (t : Tree) (type own : ValueType) :
    AgreeOn U (n.cast t type own) (m.cast t type own) := by
  intro i hi
  rw [mark_cast, mark_cast, h i hi]

theorem type?_eq {t : Tree} (h : AgreeOn t.region n m) : n.type? t = m.type? t := by
  have hself : n.types[t.id]? = m.types[t.id]? := congrArg Mark.type (h t.id t.id_mem_region)
  fun_induction Notes.type? n t with
  | case1 id token => exact hself
  | case2 id rule span child type htype =>
    rw [Tree.id] at hself
    simp only [Notes.type?, ← hself, htype]
  | case3 id rule span child htype ih =>
    have hchild : AgreeOn child.region n m :=
      h.mono (Tree.region_subset_of_mem_children (List.mem_singleton_self child))
    rw [Tree.id] at hself
    simp only [Notes.type?, ← hself, htype]
    exact ih hchild (congrArg Mark.type (hchild child.id child.id_mem_region))
  | case4 id rule span children hchildren =>
    rw [Notes.type?]
    · exact hself
    · exact hchildren

theorem ownType?_eq {t : Tree} (h : AgreeOn t.region n m) : n.ownType? t = m.ownType? t := by
  have hself : n.ownTypes[t.id]? = m.ownTypes[t.id]? := congrArg Mark.own (h t.id t.id_mem_region)
  rw [Notes.ownType?, Notes.ownType?, hself, h.type?_eq]

end AgreeOn

end Notes

end QueryScribe
