import QueryScribe.Grammar.Closure
import QueryScribe.Proofs.Outline
import QueryScribe.Proofs.Reader.Moves

/-!
# The reader that runs

The reader counts its moves. It never runs out of them and always finds what it needs: a category that
is complete can begin in the state below its parts, and that state knows it (`Begins.next_ne_nil`); and
each move shortens the stack, or leads from a category to one that has more corners (`room`). So what
it does is what `Reads` describes, for every text (`reads_parse`), and where it ends in a tree, every
node of it follows a production (`reads_parse_follows`).
-/

namespace QueryScribe

open List

open Category Production

/-! ## States know what can begin in them -/

/-- The categories that start productions of corners of a category, and the category itself. -/
def Category.reached (d : Category) : List Category :=
  d :: d.corners.flatMap fun e => e.productions.filterMap fun p =>
    match p.rhs with
    | .category c :: _ => some c
    | _ => none

theorem Category.mem_all (c : Category) : c ∈ all :=
  mem_of_getElem? c.all_getElem?_code

variable {c : Category} {p : Production}

theorem Category.mem_reached {d : Category} (h : c ∈ d.corners) : c ∈ d.reached := by
  have hsubset : all.all fun d => Analysis.isSubset
      (Analysis.bits (d.corners.map (·.code))) (Analysis.bits (d.reached.map (·.code))) := by
    decide +kernel
  have hd := all_eq_true.1 hsubset d d.mem_all
  have hbit : (Analysis.bits (d.reached.map (·.code))).testBit c.code := by
    rw [← beq_iff_eq.1 hd, Nat.testBit_or, Bool.or_eq_true]
    exact .inl (Analysis.testBit_bits _ _ |>.2 (mem_map_of_mem h))
  obtain ⟨e, he, hcode⟩ := mem_map.1 ((Analysis.testBit_bits _ _).1 hbit)
  rwa [← eq_of_code_eq hcode]

theorem Production.mem_productions (h : p ∈ c.productions) :
    p ∈ productions :=
  mem_flatMap.2 ⟨c, c.mem_all, h⟩

theorem State.Begins.next_ne_nil {s : State} (h : s.Begins c) :
    s.next .source (.category c) ≠ [] := by
  obtain ⟨i, hi, d, rest, hrest, hcorner⟩ := h
  rcases mem_cons.1 (mem_reached hcorner) with rfl | hreached
  · -- The category itself is expected.
    have hmem : (⟨i.production, rest⟩ : Item) ∈ s.next .source (.category c) :=
      mem_next_iff.2 (.inl (hrest ▸ hi))
    exact ne_nil_of_mem hmem
  · -- A production of another corner starts with it.
    obtain ⟨e, he, hp⟩ := mem_flatMap.1 hreached
    obtain ⟨p, hp, hhead⟩ := mem_filterMap.1 hp
    split at hhead
    · rename_i c' tail hrhs
      cases hhead
      have hmem : (⟨p, tail⟩ : Item) ∈ s.next .source (.category c) := by
        refine mem_next_iff.2 (.inr ⟨mem_productions hp, hrhs, i, hi, d, rest, hrest, ?_⟩)
        rwa [lhs_of_mem_productions hp]
      exact ne_nil_of_mem hmem
    · cases hhead

/-! ## How many moves there can be -/

/-- How high a symbol stands: a category is built on its corners. -/
def Symbol.rank : Symbol → Nat
  | .terminal _ => 0
  | .category c => c.corners.length

theorem Symbol.rank_category (c : Category) :
    0 < (Symbol.category c).rank ∧ (Symbol.category c).rank ≤ count := by
  cases c with
  | source => decide
  | rule r => cases r <;> decide
  | run r => cases r <;> decide

theorem Production.rank_lt {x : Symbol} (hp : p ∈ productions) (hrhs : p.rhs = [x]) :
    x.rank < (Symbol.category p.lhs).rank := by
  have hall : ∀ p ∈ productions, p.rhs.length = 1 →
      ∀ x ∈ p.rhs, x.rank < (Symbol.category p.lhs).rank := by decide +kernel
  exact hall p hp (by rw [hrhs]; rfl) x (by rw [hrhs]; exact .head _)

/-- More than the number of moves that are left before a stack for these symbols grows again. -/
def room (symbols : List Symbol) : Nat :=
  symbols.length * count + (count - (symbols.head?.map Symbol.rank).getD 0)

theorem room_pos (symbols : List Symbol) : 0 < room symbols := by
  have hcount : 0 < count := by decide
  cases symbols with
  | nil => exact hcount
  | cons x symbols =>
    unfold room
    rw [length_cons, Nat.add_mul]
    omega

/-- There is less room after a complete production has taken its parts. -/
theorem room_reduce (hp : p ∈ productions) (hne : p.rhs ≠ []) {symbols : List Symbol}
    (hrhs : p.rhs.reverse <+: symbols) :
    room (.category p.lhs :: symbols.drop p.rhs.length) < room symbols := by
  have hrank := Symbol.rank_category p.lhs
  have hlength := hrhs.length_le
  rw [length_reverse] at hlength
  unfold room
  rw [length_cons, length_drop, head?_cons, Option.map_some, Option.getD_some]
  cases hparts : p.rhs with
  | nil => exact absurd hparts hne
  | cons x rest =>
    cases rest with
    | nil =>
      -- One part: the stack is as high as before, and the category stands higher than the part.
      have hlt := rank_lt hp hparts
      obtain ⟨lower, rfl⟩ := hrhs
      simp only [hparts, reverse_singleton, singleton_append, length_cons,
        length_nil, head?_cons, Option.map_some, Option.getD_some, Nat.zero_add,
        Nat.add_sub_cancel]
      omega
    | cons y rest =>
      -- Several parts: the stack gets shorter.
      rw [hparts] at hlength
      simp only [length_cons] at hlength ⊢
      have hshorter : symbols.length - (rest.length + 1 + 1) + 1 + 1 ≤ symbols.length := by omega
      have hmul := Nat.mul_le_mul_right count hshorter
      rw [Nat.add_mul _ 1, Nat.one_mul] at hmul
      omega

/-! ## The whole source -/

theorem Category.of_program_mem_corners (h : rule .fileInput ∈ c.corners) :
    c = .source ∨ c = .rule .fileInput := by
  cases c with
  | source => exact .inl rfl
  | rule r => cases r <;> first | exact .inr rfl | exact absurd h (by decide)
  | run r => cases r <;> exact absurd h (by decide)

theorem Category.eq_source_of_mem_corners (h : source ∈ c.corners) : c = .source := by
  cases c with
  | source => rfl
  | rule r => cases r <;> exact absurd h (by decide)
  | run r => cases r <;> exact absurd h (by decide)

namespace Parser

variable {P : Symbol → List Tree → Prop} {stack : List Frame} {symbols : List Symbol}

theorem Sound.length_eq (h : Sound P stack symbols) : stack.length = symbols.length := by
  induction stack generalizing symbols with
  | nil => cases symbols with
    | nil => rfl
    | cons => cases h
  | cons f below ih => cases symbols with
    | nil => cases h
    | cons x symbols => rw [length_cons, length_cons, ih h.2.2]

theorem Sound.drop (h : Sound P stack symbols) (n : Nat) :
    Sound P (stack.drop n) (symbols.drop n) := by
  induction n generalizing stack symbols with
  | zero => exact h
  | succ n ih =>
    cases stack with
    | nil => cases symbols with
      | nil => exact h
      | cons => cases h
    | cons f below => cases symbols with
      | nil => cases h
      | cons x symbols => exact ih h.2.2

theorem Sound.room_le_patience (h : Sound P stack symbols) : room symbols ≤ patience stack := by
  unfold room patience
  rw [h.length_eq, Nat.add_mul]
  omega

theorem Sound.not_begins_source (h : Sound P stack symbols) : ¬ (top stack).Begins .source := by
  rintro ⟨i, hi, c, rest, hrest, hcorner⟩
  obtain ⟨hp, done, hrhs, -⟩ := h.rhs_of_mem_top hi
  rw [eq_source_of_mem_corners hcorner] at hrest
  rw [hrest] at hrhs
  exact source_notMem_rhs hp (hrhs ▸ mem_append_right _ (.head _))

theorem Sound.eq_nil_of_begins (h : Sound P stack symbols)
    (hbegins : (top stack).Begins (.rule .fileInput)) : stack = [] := by
  obtain ⟨i, hi, c, rest, hrest, hcorner⟩ := hbegins
  obtain ⟨hp, done, hrhs, -, hbase⟩ := h.rhs_of_mem_top hi
  have hmem : .category c ∈ i.production.rhs := by
    rw [hrhs, hrest]
    exact mem_append_right _ (.head _)
  rcases of_program_mem_corners hcorner with rfl | rfl
  · exact absurd hmem (source_notMem_rhs hp)
  · have hstart := (rhs_of_mem_productions _ hp).2.2.1 hmem
    rw [hstart, hrest] at hrhs
    -- The program is all that the whole source consists of, so nothing stands before it.
    have hdone : done = [] := by
      have hlength := congrArg List.length hrhs
      rw [length_append, length_cons] at hlength
      exact length_eq_zero_iff.1 (by simp [start] at hlength; omega)
    rcases hbase with ⟨-, hlength⟩ | hbegins
    · rw [hdone] at hlength
      exact length_eq_zero_iff.1 hlength
    · rw [hstart] at hbegins
      exact absurd hbegins (h.drop done.length).not_begins_source

variable {t : Terminal} {p : Production}

theorem Sound.eq_nil_of_rhs_eq_nil (h : Sound P stack symbols)
    (hp : (top stack).reduction? .source t = some p) (hnil : p.rhs = []) : stack = [] := by
  obtain ⟨hmem, -, ⟨rfl, -⟩ | hbegins⟩ := h.rhs_of_reduction? hp
  · cases hnil
  · rw [(rhs_of_mem_productions p hmem).2.1 hnil, hnil] at hbegins
    exact h.eq_nil_of_begins hbegins

/-- A production that is found complete finds its parts and a state below them, unless it ends the
source. -/
theorem Sound.reduces (h : Sound P stack symbols) (hp : (top stack).reduction? .source t = some p)
    (hlhs : p.lhs ≠ .source) :
    p ∈ productions ∧ p.rhs.reverse <+: symbols ∧ Reduces t stack p := by
  obtain ⟨hmem, hrhs, hbase⟩ := h.rhs_of_reduction? hp
  have hparts : p.rhs.length ≤ stack.length := by
    rw [h.length_eq, ← length_reverse]
    exact hrhs.length_le
  rcases hbase with ⟨rfl, -⟩ | hbegins
  · exact absurd rfl hlhs
  · exact ⟨hmem, hrhs, hp, hparts, hbegins.next_ne_nil⟩

theorem Sound.rhs_ne_nil (h : Sound P stack symbols) (ht : t ≠ .endOfInput)
    (hp : (top stack).reduction? .source t = some p) :
    p.lhs ≠ .source ∧ p.rhs ≠ [] := by
  obtain ⟨hmem, -⟩ := h.rhs_of_reduction? hp
  obtain ⟨hfollows, -⟩ := State.of_reduction? hp
  refine ⟨fun hlhs => ?_, fun hrhs => ?_⟩
  · rw [hlhs] at hfollows
    exact ht (mem_singleton.1 hfollows)
  · rw [(rhs_of_mem_productions p hmem).2.1 hrhs] at hfollows
    exact ht (mem_singleton.1 hfollows)

theorem Sound.feeds (hP : Closed P) (h : Sound P stack symbols) {t : Token}
    (ht : t.kind ≠ .endOfInput) {n : Nat} (hn : room symbols ≤ n) :
    Feeds t stack (Parser.feedWithin .source t n stack) := by
  induction n generalizing stack symbols with
  | zero =>
    have hpos := room_pos symbols
    omega
  | succ n ih =>
    rw [Parser.feedWithin]
    split
    · rename_i hshifts
      exact .shift hshifts
    · rename_i hshifts
      rw [Bool.not_eq_true] at hshifts
      cases hp : (top stack).reduction? .source t.kind with
      | none => exact .refuse hshifts hp
      | some p =>
        obtain ⟨hlhs, hne⟩ := h.rhs_ne_nil ht hp
        obtain ⟨hmem, hrhs, hreduces⟩ := h.reduces hp hlhs
        have hless := room_reduce hmem hne hrhs
        exact .reduce hshifts hreduces (ih (h.reduce hP hmem hrhs) (by omega))

/-- A stack that is not empty gives a tree, or the end is refused, before the moves are used up. -/
theorem Sound.finishes (h : Sound Symbol.Roots stack symbols) (hstack : stack ≠ []) {n : Nat}
    (hn : room symbols ≤ n) : Finishes stack (Parser.finishWithin .source n stack) := by
  induction n generalizing stack symbols with
  | zero =>
    have hpos := room_pos symbols
    omega
  | succ n ih =>
    rw [Parser.finishWithin]
    cases hp : (top stack).reduction? .source .endOfInput with
    | none => exact .refuse hp
    | some p =>
      rw [Option.bind_some]
      split
      · rename_i hlhs
        obtain ⟨hmem, hrhs, hbase⟩ := h.rhs_of_reduction? hp
        obtain rfl := eq_start hmem hlhs
        -- Nothing stands below the program, so it is the whole stack.
        have hlength : stack.length = 1 := by
          rcases hbase with ⟨-, hlength⟩ | hbegins
          · exact hlength
          · exact absurd hbegins (h.drop _).not_begins_source
        obtain ⟨f, rfl⟩ := length_eq_one_iff.1 hlength
        obtain ⟨lower, rfl⟩ := hrhs
        obtain ⟨span, children, htrees⟩ := h.2.1 rfl
        rw [head?_cons, Option.bind_some, htrees, head?_cons]
        exact .accept hp htrees
      · rename_i hlhs
        obtain ⟨hmem, hrhs, hreduces⟩ := h.reduces hp hlhs
        have hne : p.rhs ≠ [] := fun hnil => hstack (h.eq_nil_of_rhs_eq_nil hp hnil)
        have hless := room_reduce hmem hne hrhs
        exact .reduce hlhs hreduces
          (ih (h.reduce closed_roots hmem hrhs) (cons_ne_nil _ _) (by omega))

theorem finishes_nil : Finishes [] (Parser.finishWithin .source (patience []) []) := by
  let program : Production := ⟨.rule .fileInput, [], some .fileInput⟩
  have hprogram : (top []).reduction? .source .endOfInput = some program := by decide +kernel
  have hstart : (top (Parser.reduce .source program [])).reduction? .source .endOfInput =
      some .start := by decide +kernel
  have hlhs : program.lhs ≠ .source := nofun
  have hsound : Sound Symbol.Roots [] [] := trivial
  obtain ⟨-, -, hreduces⟩ := hsound.reduces hprogram hlhs
  have hpatience : patience [] = count - 2 + 1 + 1 := by decide
  rw [hpatience, Parser.finishWithin, hprogram, Option.bind_some, if_neg hlhs,
    Parser.finishWithin, hstart]
  exact .reduce hlhs hreduces (.accept hstart rfl)

theorem Sound.finishes_patience (h : Sound Symbol.Roots stack symbols) :
    Finishes stack (Parser.finishWithin .source (patience stack) stack) := by
  cases stack with
  | nil => exact finishes_nil
  | cons f below => exact h.finishes (cons_ne_nil f below) h.room_le_patience

/-! ## Whole texts -/

theorem Sound.feedsAll {p : Progress} (h : Sound Symbol.Roots p.stack symbols) {ts : List Token}
    (hts : ∀ t ∈ ts, t.Lexed ∧ t.kind ≠ .endOfInput) : FeedsAll p ts (p.feed .source ts) := by
  induction ts generalizing p symbols with
  | nil => exact .nil
  | cons t ts ih =>
    obtain ⟨hlexed, hkind⟩ := hts t (.head _)
    have hfeeds := h.feeds closed_roots hkind h.room_le_patience
    rw [Progress.feed, foldlM_cons]
    unfold Parser.feed
    cases hstack : Parser.feedWithin .source t (patience p.stack) p.stack with
    | none =>
      rw [hstack] at hfeeds
      exact .refuse hfeeds
    | some stack =>
      rw [hstack] at hfeeds
      obtain ⟨symbols', h'⟩ := h.feedWithin closed_roots hlexed hstack
      exact .cons hfeeds (ih (p := { p with stack := stack, fed := some t }) h'
        fun t ht => hts t (.tail _ ht))

end Parser

theorem Layout.kind_ne_of_mem_step {l : Layout} {t s : Token} (ht : t.kind ≠ .endOfInput)
    (h : s ∈ (l.step t).1) : s.kind ≠ .endOfInput := by
  unfold step at h
  split at h
  · split at h
    · cases h
    dsimp only at h
    split at h
    · rcases mem_cons.1 h with rfl | h
      · exact ht
      · rw [mem_singleton.1 h]
        nofun
    · rcases mem_cons.1 h with rfl | h
      · exact ht
      · obtain ⟨_, -, rfl⟩ := mem_map.1 h
        nofun
  all_goals exact mem_singleton.1 h ▸ ht

namespace Parser

variable {symbols : List Symbol}

theorem Sound.takes {p : Progress} (h : Sound Symbol.Roots p.stack symbols) {t : Token}
    (hlexed : t.Lexed) (hkind : t.kind ≠ .endOfInput) : Takes p t (p.take .source t) := by
  have hts : ∀ s ∈ (p.layout.step t).1, s.Lexed ∧ s.kind ≠ .endOfInput := fun s hs =>
    ⟨Layout.lexed_of_mem_step hlexed hs, Layout.kind_ne_of_mem_step hkind hs⟩
  have hfeeds := h.feedsAll hts
  unfold Progress.take
  dsimp only
  cases hfeed : p.feed .source (p.layout.step t).1 with
  | error fault =>
    rw [hfeed] at hfeeds
    exact .refuse hfeeds
  | ok q =>
    rw [hfeed] at hfeeds
    cases hlayout : (p.layout.step t).2 with
    | error m => exact .misplace hfeeds hlayout
    | ok layout => exact .take hfeeds hlayout

/-- The rest of a text is read before the lexemes are used up. -/
theorem reads_readWithin {n offset : Nat} {text : List Char} {p : Progress}
    (h : ∃ symbols, Sound Symbol.Roots p.stack symbols) (hn : text.length ≤ n) :
    Reads offset text p (readWithin .source n offset text p) := by
  fun_induction readWithin .source n offset text p with
  | case1 n offset p =>
    obtain ⟨symbols, h⟩ := h
    have hts : ∀ t ∈ p.layout.finish p.seen, t.Lexed ∧ t.kind ≠ .endOfInput := by
      intro t ht
      refine ⟨Layout.lexed_of_mem_finish ht, ?_⟩
      obtain ⟨_, -, rfl⟩ := mem_map.1 ht
      rintro ⟨⟩
    have hfeeds := h.feedsAll hts
    unfold Progress.finish
    cases hfeed : p.feed .source (p.layout.finish p.seen) with
    | error fault =>
      rw [hfeed] at hfeeds
      exact .unclosed hfeeds
    | ok q =>
      rw [hfeed] at hfeeds
      obtain ⟨symbols', h'⟩ := h.progressFeed closed_roots (fun t ht => (hts t ht).1) hfeed
      have hfinishes := h'.finishes_patience
      simp only [bind, Except.bind]
      split
      · rename_i tree htree
        rw [htree] at hfinishes
        exact .finish hfeeds hfinishes
      · rename_i htree
        rw [htree] at hfinishes
        exact .incomplete hfeeds hfinishes
  | case2 offset c cs p => simp at hn
  | case3 n offset c cs p hscan => exact .stray hscan
  | case4 n offset c cs p m hscan ih =>
    obtain ⟨hpos, hle⟩ := Lexer.scan_length hscan
    refine .skip hscan hpos (ih h ?_)
    rw [length_drop]
    dsimp only at hpos
    omega
  | case5 n offset c cs p kind m hscan t ih =>
    obtain ⟨hpos, hle⟩ := Lexer.scan_length hscan
    obtain ⟨symbols, h⟩ := h
    have hlexed : t.Lexed := Lexer.lexed_of_scan hscan _
    have hkind : t.kind ≠ .endOfInput := by
      intro hkind
      have hwritten := Lexer.isWritten_of_scan hscan
      rw [show kind = .endOfInput from hkind] at hwritten
      cases hwritten
    have htakes := h.takes hlexed hkind
    cases htake : p.take .source t with
    | error fault =>
      rw [htake] at htakes
      exact .refuse hscan htakes
    | ok q =>
      rw [htake] at htakes
      refine .take hscan hpos htakes (ih q (h.take closed_roots hlexed htake) ?_)
      rw [length_drop]
      dsimp only at hpos
      omega

end Parser

/-- Every source is read by the moves of the reader alone, to a tree or to a fault. -/
theorem reads_parse (source : String) :
    ∃ result, Parser.Reads 0 (normalize source) {} result ∧
      parse source = result.map fun t => (t.numberFrom 0).1 :=
  ⟨_, Parser.reads_readWithin ⟨[], trivial⟩ (Nat.le_refl _), rfl⟩

theorem parse_of_reads {source : String} {result : Except SyntaxFault Tree}
    (h : Parser.Reads 0 (normalize source) {} result) :
    parse source = result.map fun t => (t.numberFrom 0).1 := by
  obtain ⟨result', h', hparse⟩ := reads_parse source
  rw [hparse, h.unique h']

/-- A source ends in a fault of its text or in the tree of a program in which every node follows a
production, and no move on the way there lacks what it needs. -/
theorem reads_parse_follows (source : String) :
    ∃ result, Parser.Reads 0 (normalize source) {} result ∧
      ((∃ fault, result = .error fault ∧ parse source = .error fault) ∨
        ∃ tree root, result = .ok tree ∧ root = (tree.numberFrom 0).1 ∧ parse source = .ok root ∧
          root.rule? = some .fileInput ∧ root.Follows) := by
  obtain ⟨result, hreads, hparse⟩ := reads_parse source
  refine ⟨result, hreads, ?_⟩
  cases result with
  | error fault => exact .inl ⟨fault, rfl, hparse⟩
  | ok tree =>
    exact .inr ⟨tree, _, rfl, rfl, hparse, rule?_of_parse hparse, Tree.follows_of_parse hparse⟩

end QueryScribe
