import QueryScribe.Proofs.Recording
import QueryScribe.Query.Stage

/-!
# Members of documents

What a query reads of a document by its keys: the last of the entries with a key, and the operators
of a document that has no other keys.
-/

namespace QueryScribe

open List

/-! ## Entries by key -/

namespace Shape

variable {α : Type}

/-- The value of the last of some entries with a key. -/
def last? (key : String) (entries : List (Tree × α)) : Option α :=
  (entries.reverse.find? fun e => e.1.stringKey? == some key).map (·.2)

theorem last?_cons (key : String) (keyTree : Tree) (value : α) (rest : List (Tree × α)) :
    last? key ((keyTree, value) :: rest) = (last? key rest).or
      (if keyTree.stringKey? = some key then some value else none) := by
  simp only [last?, reverse_cons, find?_append, find?_singleton, Option.map_or]
  by_cases h : keyTree.stringKey? = some key
  · simp [h]
  · simp [h]

theorem last?_map {β : Type} (f : α → β) (key : String) (entries : List (Tree × α)) :
    last? key (entries.map fun e => (e.1, f e.2)) = (last? key entries).map f := by
  simp only [last?, ← map_reverse, find?_map, Option.map_map]
  rfl

theorem options_of {entries : List (Tree × Shape)} {operators : List (String × Shape)}
    (h : operatorsOf? entries = some operators) :
    (Builder.Siblings.of operators).options = (last? "$options" entries).map (·.tree) := by
  suffices hlookup : operators.reverse.lookup "$options" = last? "$options" entries by
    simp only [Builder.Siblings.of, hlookup]
  fun_induction operatorsOf? entries generalizing operators with
  | case1 => cases h; rfl
  | case2 keyTree value rest key hkey hop ih =>
    obtain ⟨rest', hrest, rfl⟩ := Option.map_eq_some_iff.1 h
    rw [reverse_cons, lookup_append, ih hrest, last?_cons, hkey]
    by_cases hoptions : key = "$options"
    · simp [hoptions]
    · have hne : ("$options" == key) = false := beq_false_of_ne (Ne.symm hoptions)
      simp [hoptions, List.lookup_cons, hne]
  | case3 => cases h
  | case4 => cases h

theorem mem_of_last? {key : String} {entries : List (Tree × α)} {value : α}
    (h : last? key entries = some value) : ∃ keyTree, keyTree.stringKey? = some key ∧
      (keyTree, value) ∈ entries := by
  obtain ⟨e, hfind, rfl⟩ := Option.map_eq_some_iff.1 h
  have hkey := find?_some hfind
  exact ⟨e.1, eq_of_beq hkey, mem_reverse.1 (mem_of_find?_eq_some hfind)⟩

/-- The entries whose keys are strings, by their keys. -/
def named (entries : List (Tree × α)) : List (String × α) :=
  entries.filterMap fun e => e.1.stringKey?.map (·, e.2)

theorem operatorsOf?_eq_some_iff {entries : List (Tree × α)} {operators : List (String × α)} :
    operatorsOf? entries = some operators ↔
      operators = named entries ∧ ∀ e ∈ entries, e.1.stringKey?.any isOperator := by
  fun_induction operatorsOf? entries generalizing operators with
  | case1 =>
    constructor
    · rintro ⟨⟩
      exact ⟨rfl, forall_mem_nil _⟩
    · rintro ⟨rfl, -⟩
      rfl
  | case2 keyTree value rest key hkey hop ih =>
    have hnamed : named ((keyTree, value) :: rest) = (key, value) :: named rest :=
      filterMap_cons_some (by rw [hkey]; rfl)
    rw [Option.map_eq_some_iff, forall_mem_cons, hkey, hnamed]
    constructor
    · rintro ⟨rest', hrest, rfl⟩
      obtain ⟨rfl, hops⟩ := ih.1 hrest
      exact ⟨rfl, hop, hops⟩
    · rintro ⟨rfl, -, hops⟩
      exact ⟨named rest, ih.2 ⟨rfl, hops⟩, rfl⟩
  | case3 keyTree value rest key hkey hop => simp [hkey, hop]
  | case4 keyTree value rest hkey => simp [hkey]

theorem mem_entries_of_operators? {s : Shape} {operators : List (String × Shape)}
    (h : s.operators? = some operators) {operator : String × Shape} (ho : operator ∈ operators) :
    ∃ e ∈ s.entries, e.2 = operator.2 := by
  cases s with
  | document tree entries =>
    obtain ⟨rfl, -⟩ := operatorsOf?_eq_some_iff.1 h
    obtain ⟨e, he, hop⟩ := mem_filterMap.1 ho
    obtain ⟨key, -, rfl⟩ := Option.map_eq_some_iff.1 hop
    exact ⟨e, he, rfl⟩
  | array tree items => cases h
  | scalar tree => cases h

end Shape

/-! ## Members -/

namespace Builder

open Shape (last? last?_cons)

variable {α : Type}

theorem forall_putMember {V : String × α → Prop} {key : String} {value : α}
    {members : List (String × α)} (hvalue : V (key, value)) (hmembers : ∀ m ∈ members, V m) :
    ∀ m ∈ putMember key value members, V m := by
  intro m hm
  fun_induction putMember key value members with
  | case1 => exact mem_singleton.1 hm ▸ hvalue
  | case2 =>
    rcases mem_cons.1 hm with rfl | hm
    · exact hvalue
    · exact hmembers m (.tail _ hm)
  | case3 k v rest _ ih =>
    rcases mem_cons.1 hm with rfl | hm
    · exact hmembers _ (.head _)
    · exact ih (fun m hm => hmembers m (.tail _ hm)) hm

theorem forall_keyed {V : String × α → Prop} {entries : List (Tree × α)}
    {members result : List (String × α)}
    (hentries : ∀ e ∈ entries, ∀ key, e.1.stringKey? = some key → V (key, e.2))
    (hmembers : ∀ m ∈ members, V m) (h : keyed entries members = .ok result) : ∀ m ∈ result, V m := by
  fun_induction keyed entries members with
  | case1 members => cases h; exact hmembers
  | case2 members keyTree value rest key hkey ih =>
    exact ih (fun e he => hentries e (.tail _ he))
      (forall_putMember (hentries _ (.head _) key hkey) hmembers) h
  | case3 => cases h

theorem keyed_of_members {required allowed : List String} {entries : List (Tree × α)}
    {result : List (String × α)} (h : members required allowed entries = .ok result) :
    keyed entries [] = .ok result := by
  unfold members at h
  dsimp only at h
  split at h
  · cases h
  · cases hkeyed : keyed entries [] with
    | error reason => rw [hkeyed] at h; cases h
    | ok ms =>
      simp only [hkeyed, bind, Except.bind] at h
      split at h
      · exact h
      · cases h

theorem mem_of_lookup {key : String} {members : List (String × α)} {value : α}
    (h : members.lookup key = some value) : (key, value) ∈ members := by
  obtain ⟨l₁, l₂, rfl, -⟩ := lookup_eq_some_iff.1 h
  simp

theorem lookup_putMember (key other : String) (value : α) (members : List (String × α)) :
    (putMember key value members).lookup other =
      if other = key then some value else members.lookup other := by
  fun_induction putMember key value members with
  | case1 => rw [lookup_cons_eq_ite]
  | case2 v rest =>
    rw [lookup_cons_eq_ite, lookup_cons_eq_ite]
    split <;> rfl
  | case3 k v rest hk ih =>
    rw [lookup_cons_eq_ite, lookup_cons_eq_ite, ih]
    by_cases h : other = key
    · rw [if_neg (fun hother => hk (hother.symm.trans h)), if_pos h, if_pos h]
    · rw [if_neg h, if_neg h]

theorem lookup_keyed (key : String) {entries : List (Tree × α)} {members result : List (String × α)}
    (h : keyed entries members = .ok result) :
    result.lookup key = (last? key entries).or (members.lookup key) := by
  fun_induction keyed entries members with
  | case1 members => cases h; simp [last?]
  | case2 members keyTree value rest k hk ih =>
    rw [ih h, lookup_putMember, last?_cons, hk]
    by_cases hkey : k = key
    · simp [hkey]
    · simp [hkey, Ne.symm hkey]
  | case3 => cases h

theorem stringKey?_of_keyed {entries : List (Tree × α)} {members result : List (String × α)}
    (h : keyed entries members = .ok result) : ∀ e ∈ entries, e.1.stringKey?.isSome := by
  fun_induction keyed entries members with
  | case1 members => exact forall_mem_nil _
  | case2 members keyTree value rest key hkey ih =>
    exact forall_mem_cons.2 ⟨by rw [hkey]; rfl, ih h⟩
  | case3 => cases h

/-- The keys of a document whose members are read are all required or allowed. -/
theorem names_of_members {required allowed : List String} {entries : List (Tree × α)}
    {result : List (String × α)} (h : members required allowed entries = .ok result) :
    entries ≠ [] ∧ ∀ e ∈ entries, ∃ name, e.1.stringKey? = some name ∧ name ∈ required ++ allowed := by
  have hkeyed := keyed_of_members h
  unfold members at h
  simp only [hkeyed, bind, Except.bind] at h
  split at h
  · cases h
  · rename_i hne
    refine ⟨fun heq => hne (by rw [heq]; rfl), fun e he => ?_⟩
    obtain ⟨name, hname⟩ := Option.isSome_iff_exists.1 (stringKey?_of_keyed hkeyed e he)
    refine ⟨name, hname, ?_⟩
    have hlast : (last? name entries).isSome := by
      simp only [last?, Option.isSome_map, find?_isSome, mem_reverse]
      exact ⟨e, he, beq_iff_eq.2 hname⟩
    obtain ⟨value, hvalue⟩ := Option.isSome_iff_exists.1 hlast
    have hmem : (name, value) ∈ result :=
      mem_of_lookup (by rw [lookup_keyed name hkeyed, hvalue]; rfl)
    split at h
    · rename_i hkeys
      have hunexpected := filter_eq_nil_iff.1 (isEmpty_iff.1 (Bool.and_eq_true_iff.1 hkeys).2) name
        (mem_map_of_mem hmem)
      simpa [or_iff_not_imp_left] using hunexpected
    · cases h

/-! ## Geometries -/

variable {b : Builder}

/-- A geometry goes on with its members, whatever it is. -/
theorem geometry_eq_members (s : Shape) : b.geometry s = (do
    let members ← ofRefusal
      (members ["type"] ["coordinates", "geometries"] (b.collections s.entries))
    b.geometryOf members) := by
  cases s <;> rfl

theorem collections_eq_map (entries : List (Tree × Shape)) :
    b.collections entries = entries.map fun e => (e.1, e.2, b.collected e.2) := by
  induction entries with
  | nil => rfl
  | cons e entries ih =>
    rw [map_cons, ← ih]
    rfl

end Builder

end QueryScribe
