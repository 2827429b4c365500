import Mathlib.Data.List.Infix
import QueryScribe.Proofs.Reader.Running

/-!
# No state leaves a choice

Two productions under way in one state may ask for different moves before one terminal: one is complete
and the other goes on, or both are complete. In the states that the reader can reach no two productions
do (`Reached.settled`), so before a terminal that can follow its category a production that is complete
is taken (`Reached.reduces`). The states are not listed for this. Two productions come to be under way
together only where one category is expected (`Item.Proper.keeps`), and the few pairs that start with
the same symbol there are followed until they part (`Item.apart`).
-/

namespace QueryScribe

open List

open Category

deriving instance DecidableEq for Item

/-! ## Corners -/

namespace Category

theorem corners_closed : all.all (fun c => decide (c ∈ c.corners) && Analysis.isSubset
    (Analysis.bits (c.reached.map (·.code))) (Analysis.bits (c.corners.map (·.code)))) := by
  decide +kernel

theorem mem_corners_of_rhs {c d e : Category} (hd : d ∈ c.corners) {p : Production}
    (hp : p ∈ d.productions) {rest : List Symbol} (hrhs : p.rhs = .category e :: rest) :
    e ∈ c.corners := by
  have hc := (Bool.and_eq_true_iff.1 (all_eq_true.1 corners_closed c c.mem_all)).2
  have hmem : e ∈ c.reached := by
    refine .tail _ (mem_flatMap.2 ⟨d, hd, mem_filterMap.2 ⟨p, hp, ?_⟩⟩)
    rw [hrhs]
  have hbit : (Analysis.bits (c.corners.map (·.code))).testBit e.code := by
    rw [← beq_iff_eq.1 hc, Nat.testBit_or, Bool.or_eq_true]
    exact .inl (Analysis.testBit_bits _ _ |>.2 (mem_map_of_mem hmem))
  obtain ⟨e', he', hcode⟩ := mem_map.1 ((Analysis.testBit_bits _ _).1 hbit)
  rwa [← eq_of_code_eq hcode]

theorem self_mem_corners (c : Category) : c ∈ c.corners :=
  of_decide_eq_true (Bool.and_eq_true_iff.1 (all_eq_true.1 corners_closed c c.mem_all)).1

end Category

/-! ## Productions that leave no choice -/

namespace Item

/-- The terminals before which an item asks for a move: those that can follow what is complete, or
start what is expected. -/
def claims (i : Item) : Nat :=
  match i.rest with
  | [] => Analysis.source.followers.getD i.production.lhs.code 0
  | x :: _ => Analysis.source.startersOf x

/-- Two items do not ask for different moves: they are the same, both go on, or have no terminal in
common. -/
def agrees (i j : Item) : Bool :=
  decide (i = j) || !(i.rest.isEmpty || j.rest.isEmpty) || (i.claims &&& j.claims == 0)

theorem disjoint_of_agrees {i j : Item} (h : i.agrees j) (hi : i.rest = []) (hne : i ≠ j)
    {t : Terminal} (hclaims : i.claims.testBit t.ctorIdx) :
    j.claims.testBit t.ctorIdx = false := by
  unfold agrees at h
  rw [decide_eq_false hne, hi] at h
  have hzero : i.claims &&& j.claims = 0 := by simpa using h
  have hbit := congrArg (Nat.testBit · t.ctorIdx) hzero
  simpa [Nat.testBit_and, hclaims] using hbit

end Item

namespace State

/-- No two items of a state ask for different moves. -/
def settled (s : State) : Bool := s.all fun i => s.all i.agrees

variable {s : State} {p : Production} {t : Terminal}

theorem exists_claims_of_shifts (h : s.shifts .source t) :
    ∃ j ∈ s, j.rest ≠ [] ∧ j.claims.testBit t.ctorIdx := by
  obtain ⟨j, hj, ⟨rest, hrest⟩ | ⟨c, rest, hrest, hstarts⟩⟩ := shifts_iff.1 h
  · refine ⟨j, hj, by simp [hrest], ?_⟩
    rw [Item.claims, hrest]
    simp [Analysis.startersOf, Nat.one_shiftLeft]
  · refine ⟨j, hj, by simp [hrest], ?_⟩
    rw [Item.claims, hrest]
    exact Analysis.starts_iff.2 hstarts

/-- Where no items ask for different moves, a production that is complete is found so before a terminal
that can follow its category, and nothing goes on with the terminal. -/
theorem reduction?_of_settled (h : s.settled) (hp : ⟨p, []⟩ ∈ s) (ht : t ∈ p.lhs.followers) :
    s.shifts .source t = false ∧ s.reduction? .source t = some p := by
  have hagrees : ∀ j ∈ s, Item.agrees ⟨p, []⟩ j :=
    all_eq_true.1 (all_eq_true.1 h _ hp)
  have hclaims : (⟨p, []⟩ : Item).claims.testBit t.ctorIdx := Analysis.follows_iff.2 ht
  constructor
  · rw [Bool.eq_false_iff]
    intro hshifts
    obtain ⟨j, hj, hrest, hbit⟩ := exists_claims_of_shifts hshifts
    have hne : (⟨p, []⟩ : Item) ≠ j := fun heq => hrest (heq ▸ rfl)
    rw [Item.disjoint_of_agrees (hagrees j hj) rfl hne hclaims] at hbit
    cases hbit
  · have hfind : s.find? (fun i => i.rest.isEmpty && Analysis.source.follows i.production.lhs t) =
        some ⟨p, []⟩ := by
      cases hfound : s.find? fun i => i.rest.isEmpty && Analysis.source.follows i.production.lhs t with
      | none =>
        have hnone := find?_eq_none.1 hfound _ hp
        simp [Analysis.follows_iff.2 ht] at hnone
      | some i =>
        have hcond := find?_some hfound
        simp only [Bool.and_eq_true, List.isEmpty_iff] at hcond
        by_contra hne
        have hne : (⟨p, []⟩ : Item) ≠ i := fun heq => hne (by rw [heq])
        have hbit := Item.disjoint_of_agrees (hagrees i (mem_of_find?_eq_some hfound)) rfl hne
          hclaims
        rw [Item.claims, hcond.1] at hbit
        exact Bool.false_ne_true (hbit.symm.trans hcond.2)
    rw [reduction?, hfind]

end State

/-! ## Pairs of items that part -/

namespace Item

/-- What an item stands for before the next symbol: itself, and the productions that can begin where it
expects a category. -/
def closure (i : Item) : List Item :=
  i ::
    match i.rest with
    | .category c :: _ => (c.corners.flatMap Category.productions).map fun p => ⟨p, p.rhs⟩
    | _ => []

/-- Where two items expect the same symbol, they are the same after it, or `f` holds of them then. -/
def keeps (f : Item → Item → Bool) (i j : Item) : Bool :=
  match i.rest, j.rest with
  | x :: rest, y :: rest' =>
    if x = y then
      decide ((⟨i.production, rest⟩ : Item) = ⟨j.production, rest'⟩) ||
        f ⟨i.production, rest⟩ ⟨j.production, rest'⟩
    else true
  | _, _ => true

/-- Whether two items, and all that come from them after the same symbols, do not ask for different
moves; at most `n` symbols are followed. Where both expect the same category, what begins there is left
out: it begins for each of them alone as well. -/
def apart : Nat → Item → Item → Bool
  | 0, _, _ => false
  | n + 1, i, j =>
    i.agrees j && i.keeps (apart n) j &&
      (decide (i.rest.head? = j.rest.head?) ||
        i.closure.all fun a => j.closure.all (a.keeps (apart n)))

variable {f : Item → Item → Bool} {i j a : Item} {p q : Production} {x : Symbol}
  {rest rest' : List Symbol}

theorem mem_closure_iff : a ∈ i.closure ↔ a = i ∨ ∃ c rest, i.rest = .category c :: rest ∧
    ∃ p ∈ productions, p.lhs ∈ c.corners ∧ a = ⟨p, p.rhs⟩ := by
  unfold closure
  rw [mem_cons]
  refine or_congr_right ?_
  split
  · rename_i c rest hrest
    simp only [mem_map, mem_flatMap, hrest, List.cons.injEq, Symbol.category.injEq]
    constructor
    · rintro ⟨p, ⟨d, hd, hp⟩, rfl⟩
      have hlhs := lhs_of_mem_productions hp
      exact ⟨c, rest, ⟨rfl, rfl⟩, p, Production.mem_productions hp, hlhs ▸ hd, rfl⟩
    · rintro ⟨c', rest', ⟨rfl, rfl⟩, p, hp, hlhs, rfl⟩
      exact ⟨p, ⟨p.lhs, hlhs, Production.mem_of_mem_productions hp⟩, rfl⟩
  · rename_i hrest
    refine iff_of_false not_mem_nil ?_
    rintro ⟨c, rest, h, -⟩
    exact hrest c rest h

theorem keeps_of_head_ne (h : i.rest.head? ≠ j.rest.head?) : i.keeps f j := by
  unfold keeps
  split
  · rename_i x rest y rest' hi hj
    rw [if_neg fun hxy => h (by rw [hi, hj, hxy]; rfl)]
  · rfl

theorem keeps_self : i.keeps f i := by
  unfold keeps
  split
  · rename_i hi hj
    rw [hi] at hj
    cases hj
    simp
  · rfl

theorem eq_or_of_keeps (h : keeps f ⟨p, x :: rest⟩ ⟨q, x :: rest'⟩) :
    (⟨p, rest⟩ : Item) = ⟨q, rest'⟩ ∨ f ⟨p, rest⟩ ⟨q, rest'⟩ := by
  simpa only [keeps, if_true, Bool.or_eq_true, decide_eq_true_eq] using h

end Item

/-! ## What begins where one category is expected -/

/-- A union of sets of numbers. -/
def unions (sets : List Nat) : Nat := sets.foldl (· ||| ·) 0

theorem testBit_unions {sets : List Nat} {k : Nat} :
    (unions sets).testBit k ↔ ∃ set ∈ sets, set.testBit k := by
  have hfold (start : Nat) : (sets.foldl (· ||| ·) start).testBit k ↔
      start.testBit k ∨ ∃ set ∈ sets, set.testBit k := by
    induction sets generalizing start with
    | nil => simp
    | cons set sets ih => simp [ih, Nat.testBit_or, or_assoc]
  exact (hfold 0).trans (by simp)

namespace Category

/-- The pairs of categories that are corners of one category. -/
def meetings : Nat :=
  unions (all.flatMap fun c => c.corners.map fun d =>
    Analysis.source.corners.getD c.code 0 <<< (d.code * count))

theorem testBit_meetings {c d e : Category} (hd : d ∈ c.corners) (he : e ∈ c.corners) :
    meetings.testBit (d.code * count + e.code) := by
  refine testBit_unions.2 ⟨_, mem_flatMap.2 ⟨c, c.mem_all, mem_map_of_mem hd⟩, ?_⟩
  rw [Nat.testBit_shiftLeft, Nat.add_sub_cancel_left, Analysis.testBit_corners.2 he]
  simp

end Category

namespace Production

/-- A bit of the code of the symbol with which a production starts. -/
def openerBit (n : Nat) (p : Production) : Bool :=
  match p.rhs with
  | [] => false
  | x :: _ => x.code.testBit n

/-- Productions in groups, by the lowest `n` bits of the symbols with which they start. -/
def groups : Nat → List Production → List (List Production)
  | 0, ps => [ps]
  | n + 1, ps => groups n (ps.filter (·.openerBit n)) ++ groups n (ps.filter (!·.openerBit n))

theorem exists_mem_groups {p q : Production} (h : p.rhs.head? = q.rhs.head?) (n : Nat)
    {ps : List Production} (hp : p ∈ ps) (hq : q ∈ ps) : ∃ g ∈ groups n ps, p ∈ g ∧ q ∈ g := by
  have hbit (n : Nat) : p.openerBit n = q.openerBit n := by
    unfold openerBit
    cases hp : p.rhs <;> cases hq : q.rhs <;> simp_all
  induction n generalizing ps with
  | zero => exact ⟨ps, mem_singleton_self _, hp, hq⟩
  | succ n ih =>
    cases hside : p.openerBit n with
    | true =>
      obtain ⟨g, hg, hmem⟩ := ih (mem_filter.2 ⟨hp, hside⟩)
        (mem_filter.2 ⟨hq, (hbit n).symm.trans hside⟩)
      exact ⟨g, mem_append_left _ hg, hmem⟩
    | false =>
      have hp' : p ∈ ps.filter (!·.openerBit n) := mem_filter.2 ⟨hp, by simp [hside]⟩
      have hq' : q ∈ ps.filter (!·.openerBit n) := mem_filter.2 ⟨hq, by simp [← hbit, hside]⟩
      obtain ⟨g, hg, hmem⟩ := ih hp' hq'
      exact ⟨g, mem_append_right _ hg, hmem⟩

theorem keeps_of_mem_corners {p q : Production} {c : Category} (hp : p ∈ productions)
    (hq : q ∈ productions) (hpc : p.lhs ∈ c.corners) (hqc : q.lhs ∈ c.corners) :
    (⟨p, p.rhs⟩ : Item).keeps (Item.apart 8) ⟨q, q.rhs⟩ := by
  have hall : ((groups 8 productions).all fun g => g.all fun p => g.all fun q =>
      !meetings.testBit (p.lhs.code * count + q.lhs.code) ||
        (⟨p, p.rhs⟩ : Item).keeps (Item.apart 8) ⟨q, q.rhs⟩) := by
    decide +kernel
  by_cases hhead : p.rhs.head? = q.rhs.head?
  · obtain ⟨g, hg, hpg, hqg⟩ := exists_mem_groups hhead 8 hp hq
    have h := all_eq_true.1 (all_eq_true.1 (all_eq_true.1 hall g hg) p hpg) q hqg
    rwa [testBit_meetings hpc hqc] at h
  · exact Item.keeps_of_head_ne hhead

end Production

namespace Item

/-- An item of the grammar: what is left of one of its productions. -/
structure Proper (i : Item) : Prop where
  production : i.production ∈ productions
  rest : i.rest <:+ i.production.rhs

/-- A production that starts with the category it begins for parts from the item that expects the
category. -/
theorem keeps_opener {p q : Production} {c : Category} {rest : List Symbol} (hp : p ∈ productions)
    (hrest : .category c :: rest <:+ p.rhs) (hq : q ∈ productions) (hqc : q.lhs ∈ c.corners) :
    (⟨p, .category c :: rest⟩ : Item).keeps (apart 8) ⟨q, q.rhs⟩ ∧
      (⟨q, q.rhs⟩ : Item).keeps (apart 8) ⟨p, .category c :: rest⟩ := by
  have hall : (productions.all fun p => p.rhs.tails.all fun rest =>
      match rest with
      | .category c :: _ =>
        (Analysis.openersOf (c.corners.flatMap Category.productions) (Symbol.category c).code).all
          fun q => (⟨p, rest⟩ : Item).keeps (apart 8) ⟨q, q.rhs⟩ &&
            (⟨q, q.rhs⟩ : Item).keeps (apart 8) ⟨p, rest⟩
      | _ => true) := by
    decide +kernel
  by_cases hhead : q.rhs.head? = some (.category c)
  · obtain ⟨rest', hrhs⟩ := head?_eq_some_iff.1 hhead
    have hmem : q ∈ Analysis.openersOf (c.corners.flatMap Category.productions)
        (Symbol.category c).code := by
      refine mem_filter.2 ⟨mem_flatMap.2
        ⟨_, hqc, Production.mem_of_mem_productions hq⟩, ?_⟩
      rw [hrhs]
      exact beq_self_eq_true _
    have h := all_eq_true.1 (all_eq_true.1 hall p hp) _ ((mem_tails _ _).2 hrest)
    simpa using all_eq_true.1 h q hmem
  · exact ⟨keeps_of_head_ne fun h => hhead h.symm, keeps_of_head_ne hhead⟩

theorem Proper.keeps {i a b : Item} (hi : i.Proper) (ha : a ∈ i.closure) (hb : b ∈ i.closure) :
    a.keeps (apart 8) b := by
  rcases mem_closure_iff.1 ha with rfl | ⟨c, rest, hrest, p, hp, hpc, rfl⟩
  · rcases mem_closure_iff.1 hb with rfl | ⟨c, rest, hrest, q, hq, hqc, rfl⟩
    · exact keeps_self
    · have h := (keeps_opener hi.production (hrest ▸ hi.rest) hq hqc).1
      rwa [← hrest] at h
  · rcases mem_closure_iff.1 hb with rfl | ⟨c', rest', hrest', q, hq, hqc, rfl⟩
    · have h := (keeps_opener hi.production (hrest ▸ hi.rest) hp hpc).2
      rwa [← hrest] at h
    · rw [hrest] at hrest'
      cases hrest'
      exact Production.keeps_of_mem_corners hp hq hpc hqc

/-- Two items that part still do so after the next symbol, whatever begins for either. -/
theorem keeps_of_apart {n : Nat} {i j a b : Item} (hi : i.Proper) (hj : j.Proper)
    (h : apart n i j) (ha : a ∈ i.closure) (hb : b ∈ j.closure) :
    ∃ m, a.keeps (apart m) b := by
  cases n with
  | zero => cases h
  | succ n =>
    rw [apart, Bool.and_eq_true, Bool.and_eq_true, Bool.or_eq_true, decide_eq_true_eq] at h
    obtain ⟨⟨-, hkeeps⟩, hhead | hall⟩ := h
    · -- What begins for one of them begins for the other.
      rcases mem_closure_iff.1 hb with rfl | ⟨c, rest, hrest, hq⟩
      · rcases mem_closure_iff.1 ha with rfl | ⟨c, rest, hrest, hp⟩
        · exact ⟨n, hkeeps⟩
        · rw [hrest, eq_comm, head?_cons, head?_eq_some_iff] at hhead
          obtain ⟨rest', hrest'⟩ := hhead
          exact ⟨8, hj.keeps (mem_closure_iff.2 (.inr ⟨c, rest', hrest', hp⟩)) hb⟩
      · rw [hrest, head?_cons, head?_eq_some_iff] at hhead
        obtain ⟨rest', hrest'⟩ := hhead
        exact ⟨8, hi.keeps ha (mem_closure_iff.2 (.inr ⟨c, rest', hrest', hq⟩))⟩
    · exact ⟨n, all_eq_true.1 (all_eq_true.1 hall a ha) b hb⟩

end Item

/-! ## The states that can be reached -/

namespace State

variable {s : State}

theorem exists_mem_closure_of_mem_next {x : Symbol} {i : Item} (h : i ∈ s.next .source x) :
    ∃ j ∈ s, (⟨i.production, x :: i.rest⟩ : Item) ∈ j.closure := by
  rcases mem_next_iff.1 h with h | ⟨hp, hrhs, j, hj, c, rest, hrest, hcorner⟩
  · exact ⟨_, h, .head _⟩
  · exact ⟨j, hj, Item.mem_closure_iff.2 (.inr ⟨c, rest, hrest, i.production, hp, hcorner, by rw [hrhs]⟩)⟩

/-- The states that the reader can be in. -/
inductive Reached : State → Prop
  | initial : Reached .initial
  | next {s : State} (x : Symbol) : Reached s → Reached (s.next .source x)

theorem Reached.proper (h : Reached s) : ∀ i ∈ s, i.Proper := by
  induction h with
  | initial =>
    intro i hi
    rw [mem_singleton.1 hi]
    exact ⟨Production.mem_productions (c := .source) (mem_singleton_self _), suffix_refl _⟩
  | next x _ ih =>
    intro i hi
    rcases mem_next_iff.1 hi with hi | ⟨hp, hrhs, -⟩
    · exact ⟨(ih _ hi).production, (suffix_cons x i.rest).trans (ih _ hi).rest⟩
    · exact ⟨hp, hrhs ▸ suffix_cons x i.rest⟩

theorem Reached.apart (h : Reached s) :
    ∀ i ∈ s, ∀ j ∈ s, i = j ∨ ∃ n, Item.apart n i j := by
  induction h with
  | initial =>
    intro i hi j hj
    rw [mem_singleton.1 hi, mem_singleton.1 hj]
    exact .inl rfl
  | next x hs ih =>
    intro i hi j hj
    obtain ⟨a, ha, hia⟩ := exists_mem_closure_of_mem_next hi
    obtain ⟨b, hb, hjb⟩ := exists_mem_closure_of_mem_next hj
    have hkeeps : ∃ m, (⟨i.production, x :: i.rest⟩ : Item).keeps (Item.apart m)
        ⟨j.production, x :: j.rest⟩ := by
      rcases ih a ha b hb with rfl | ⟨n, hn⟩
      · exact ⟨8, (hs.proper a ha).keeps hia hjb⟩
      · exact Item.keeps_of_apart (hs.proper a ha) (hs.proper b hb) hn hia hjb
    obtain ⟨m, hm⟩ := hkeeps
    exact (Item.eq_or_of_keeps hm).imp_right fun h => ⟨m, h⟩

theorem Reached.settled (h : Reached s) : s.settled := by
  refine all_eq_true.2 fun i hi => all_eq_true.2 fun j hj => ?_
  rcases h.apart i hi j hj with rfl | ⟨n, hn⟩
  · simp [Item.agrees]
  · cases n with
    | zero => cases hn
    | succ n =>
      rw [Item.apart, Bool.and_eq_true, Bool.and_eq_true] at hn
      exact hn.1.1

theorem Reached.reduces (h : Reached s) {p : Production} {t : Terminal} (hp : ⟨p, []⟩ ∈ s)
    (ht : t ∈ p.lhs.followers) :
    s.shifts .source t = false ∧ s.reduction? .source t = some p :=
  reduction?_of_settled h.settled hp ht

end State

end QueryScribe
