import QueryScribe.Proofs.Reader.Embedding

/-!
# Groups of expressions are read

A source that is one expression is read to a program of this expression alone (`Expression.exists_root`).
Several such sources make a group: their texts with a comma after each of them, in parentheses. The
reader waits for an element of the group in one of three states (`Slot`), and in each of them it goes on
with an expression as it does at the start of a program. So it takes the group element by element, and
the group is read to a tree of the trees of its elements (`parse_group`).
-/

namespace QueryScribe

open List

open Category Production State

/-! ## Derivations without line breaks -/

/-- The categories in which lines end. -/
def Category.blocks : List Category :=
  [.source, .rule .fileInput, .rule .stmt, .rule .simpleStmt, .rule .compoundStmt, .rule .ifStmt,
   .rule .whileStmt, .rule .forStmt, .rule .tryStmt, .rule .withStmt, .rule .funcDef, .rule .classDef,
   .rule .decorated, .rule .decorator, .rule .asyncStmt, .rule .suite, .run .lines, .run .elifs,
   .run .excepts, .run .decorators, .run .stmts]

/-- Whether no line ends in a symbol. -/
def Symbol.isInline : Symbol → Bool
  | .terminal k => k ≠ .newline
  | .category c => c ∉ blocks

variable {ts : List Token}

variable {trees : List Tree} {t : Tree}

theorem Derives.kind_ne_newline {xs : List Symbol} (h : Derives xs ts trees)
    (hxs : ∀ x ∈ xs, x.isInline) : ∀ t ∈ ts, t.kind ≠ .newline := by
  have hclosed : ∀ p ∈ productions, (Symbol.category p.lhs).isInline →
      ∀ x ∈ p.rhs, x.isInline := by decide +kernel
  induction h with
  | nil => nofun
  | terminal t _ ih =>
    obtain ⟨ht, hxs⟩ := forall_mem_cons.1 hxs
    exact forall_mem_cons.2 ⟨of_decide_eq_true ht, ih hxs⟩
  | category hp _ _ _ _ ih ih' =>
    obtain ⟨hlhs, hxs⟩ := forall_mem_cons.1 hxs
    exact forall_mem_append.2 ⟨ih (hclosed _ hp hlhs), ih' hxs⟩

/-! ## States that wait for an expression -/

/-- A state that goes on with an expression as the initial state does, and accepts nothing else but
what closes a group. -/
structure State.Hosts (s : State) : Prop where
  reached : s.Reached
  begins : s.Begins (.rule .test)
  next : ∀ x, (rule .test).Leads x → initial.next .source x = s.next .source x
  accepts : ∀ t, s.accepts .source t = true →
    initial.accepts .source t = true ∨ t = .rightParen ∨ t = .rightBracket
  name : s.accepts .source .name = true

/-- What can be checked of such a state. -/
def State.hosts (s : State) : Bool :=
  (s.corners .source).testBit (rule .test).code && s.accepts .source .name &&
    ((rule .test).corners.all fun d => d.productions.all fun p => p.rhs.head?.all fun x =>
      initial.next .source x == s.next .source x) &&
    (List.range Terminal.count).all fun i => let t := Terminal.ofNat i
      !s.accepts .source t || initial.accepts .source t || t == .rightParen || t == .rightBracket

theorem State.Reached.hosts {s : State} (h : s.Reached) (hs : s.hosts) : s.Hosts := by
  simp only [State.hosts, Bool.and_eq_true] at hs
  obtain ⟨⟨⟨hbegins, hname⟩, hnext⟩, haccepts⟩ := hs
  refine ⟨h, testBit_corners.1 hbegins, fun x ⟨d, hd, p, hp, hx⟩ => ?_, fun t ht => ?_, hname⟩
  · have hhead := all_eq_true.1 (all_eq_true.1 hnext d hd) p hp
    rw [Option.mem_def.1 hx] at hhead
    exact beq_iff_eq.1 hhead
  · have hall := all_eq_true.1 haccepts _ (mem_range.2 t.ctorIdx_lt_count)
    simp only [Terminal.ofNat_ctorIdx, ht, Bool.not_true, Bool.false_or, Bool.or_eq_true,
      beq_iff_eq] at hall
    rwa [or_assoc] at hall

theorem State.hosts_initial : initial.Hosts := Reached.initial.hosts (by decide +kernel)

namespace Parser

theorem Eats.of_append {stack mid last : List Frame} {ts ts' : List Token}
    (h : Eats stack (ts ++ ts') last) (h' : Eats stack ts mid) : Eats mid ts' last := by
  induction h' with
  | nil => exact h
  | cons hfeeds _ ih =>
    cases h with
    | cons hfeeds' h =>
      cases hfeeds.unique hfeeds'
      exact ih h

end Parser

open QueryScribe.Parser

/-- An expression is taken as it is at the start of a program, and before what follows it the reader
has one entry for it. -/
theorem Derives.eatsBoth_test (h : Derives [.category (.rule .test)] ts trees) {stack : List Frame}
    (hhosts : (top stack).Hosts) :
    ∃ mid mid' f, EatsBoth [] stack ts mid mid' ∧
      f.state = (top stack).next .source (.category (.rule .test)) ∧
      ∀ k ∈ (rule .test).followers, Settles k mid' (f :: stack) := by
  generalize hxs : [Symbol.category (.rule .test)] = xs at h
  cases h with
  | nil => cases hxs
  | terminal => cases hxs
  | @category _ _ _ _ _ p hp hlhs hrhs h hrest =>
    obtain ⟨hcategory, rfl⟩ := List.cons.inj hxs
    have hcategory : rule .test = p.lhs := Symbol.category.inj hcategory
    cases hrest
    have hexpects (stack : List Frame) (hhosts : (top stack).Hosts) : Expects p p.rhs stack :=
      ⟨hhosts.reached, .inr ⟨hp, rfl, hcategory ▸ hhosts.begins⟩⟩
    obtain ⟨mid, mid', parts, heats, hlength, -, -, hmid'⟩ := h.eatsBoth (c := .rule .test) hp hrhs
      (nil_append _).symm (hexpects [] hosts_initial) (hexpects stack hhosts) fun x hx =>
        .inr ⟨⟨_, self_mem_corners _, p,
          hcategory ▸ mem_of_mem_productions hp, hx⟩, hhosts.next⟩
    refine ⟨mid, mid', reduced p stack parts, by simpa using heats, by rw [hcategory]; rfl, fun k hk => ?_⟩
    exact hmid'.reduces hlhs hlength (hcategory ▸ hhosts.begins) (hcategory ▸ hk)

/-! ## Programs of one expression -/

/-- A tree in nodes of rules that hold nothing else, the innermost first. -/
def Tree.enclosed (rules : List Rule) (t : Tree) : Tree :=
  rules.foldl (fun t rule => .node 0 rule ⟨0, 0⟩ [t]) t

/-- Whether a rule may hold another one alone. -/
def Rule.holds (inner outer : Rule) : Bool :=
  (rule outer).productions.contains ⟨.rule outer, [.category (.rule inner)], some outer⟩

theorem Derives.enclosed {rule : Rule} {rules : List Rule}
    (hrules : (rule :: rules).IsChain (·.holds ·)) (h : Derives [.category (.rule rule)] ts [t]) :
    Derives [.category (.rule (rules.getLastD rule))] ts [t.enclosed rules] := by
  induction rules generalizing rule t with
  | nil => exact h
  | cons outer rules ih =>
    obtain ⟨hholds, hrules⟩ := isChain_cons_cons.1 hrules
    have hp := mem_productions (contains_iff_mem.1 hholds)
    have hlast : (outer :: rules).getLastD rule = rules.getLastD outer := by
      cases rules <;> rfl
    rw [hlast]
    exact ih hrules (h.of_production hp nofun nofun)

/-- The tree of a program that is one expression. -/
def Tree.program (t : Tree) : Tree :=
  (t.enclosed [.testListStar, .exprStmt, .smallStmt, .simpleStmt, .stmt]).enclosed [.fileInput]

theorem Derives.program (h : Derives [.category (.rule .test)] ts [t]) :
    Derives [.category (.rule .fileInput)] (ts ++ [⟨.newline, "\n", ⟨0, 1⟩⟩]) [t.program] := by
  have hline : (⟨.rule .simpleStmt, [.category (.rule .smallStmt), .terminal .newline],
      some .simpleStmt⟩ : Production) ∈ (rule .simpleStmt).productions := by decide
  have hlines : (⟨.run .lines, [.category (.rule .stmt)], none⟩ : Production) ∈
      (run .lines).productions := by decide
  have hprogram : (⟨.rule .fileInput, [.category (.run .lines)], some .fileInput⟩ : Production) ∈
      (rule .fileInput).productions := by decide
  have hrules : [Rule.test, .testListStar, .exprStmt, .smallStmt].IsChain (·.holds ·) := by decide
  have hsmall := h.enclosed hrules
  have hnewline : Derives [.terminal .newline] [⟨.newline, "\n", ⟨0, 1⟩⟩] [] :=
    .terminal ⟨.newline, "\n", ⟨0, 1⟩⟩ .nil
  have hsimple := (hsmall.append hnewline).of_production (mem_productions hline) nofun nofun
  have hholds : [Rule.simpleStmt, .stmt].IsChain (·.holds ·) := by decide
  have hstmt := Derives.enclosed hholds hsimple
  exact (hstmt.of_production (mem_productions hlines) nofun nofun).of_production
    (mem_productions hprogram) nofun nofun

/-- A source that is the text of one expression and nothing else. -/
structure Expression where
  text : String
  /-- What the source is read to. -/
  root : Tree
  /-- The tokens of the expression. -/
  tokens : List Token
  /-- The line break after it. -/
  newline : Token
  /-- The tree of the expression, apart from places. -/
  tree : Tree
  parsed : parse text = .ok root
  tokens_eq : significant 0 (QueryScribe.tokens text) = tokens ++ [newline]
  start : leadingBlanks text = 0
  stop : newline.span.start = text.length
  derives : Derives [.category (.rule .test)] tokens [tree]

namespace Expression

variable (x : Expression)

theorem normalize_text : normalize x.text = x.text.toList ++ ['\n'] ∧
    ∃ q, Walks 0 (x.text.toList ++ ['\n']) {} (QueryScribe.tokens x.text) q := by
  obtain ⟨result, hreads, hparse⟩ := reads_parse x.text
  rw [x.parsed] at hparse
  cases result with
  | error fault => cases hparse
  | ok tree =>
    obtain ⟨ts, q, hwalks, -⟩ := reads_iff.1 hreads
    have hts : QueryScribe.tokens x.text = ts := by
      rw [QueryScribe.tokens, x.start, hwalks.tokensWithin_eq ⟨[], trivial⟩ (Nat.le_refl _)]
    have hmem : x.newline ∈ ts := by
      rw [← hts]
      exact mem_of_mem_significant (n := 0) (by rw [x.tokens_eq]; simp)
    -- The line break at the end stands after all of the text, so nothing is trimmed.
    have hplace := hwalks.place x.newline hmem
    obtain ⟨stop, htext, -⟩ := Text.exists_eq_trimBy Text.isBlank x.text.toList
    have hlength := congrArg List.length htext
    have hstart : (x.text.toList.takeWhile Text.isBlank).length = 0 := x.start
    rw [x.stop, normalize, length_append, length_singleton, Text.trim] at hplace
    rw [length_append, length_append, hstart, String.length_toList] at hlength
    have hstop : stop = [] := eq_nil_of_length_eq_zero (by omega)
    rw [eq_nil_of_length_eq_zero hstart, hstop, nil_append, append_nil] at htext
    have hnormalize : normalize x.text = x.text.toList ++ ['\n'] := by
      rw [normalize, Text.trim, ← htext]
    rw [hts, ← hnormalize]
    exact ⟨rfl, q, hwalks⟩

theorem exists_head : ∃ c cs, x.text.toList = c :: cs ∧ Lexer.isGap c = false := by
  have hstart := eq_nil_of_length_eq_zero x.start
  cases htext : x.text.toList with
  | nil =>
    have hone : (significant 0 (QueryScribe.tokens "")).length = 1 := by decide +kernel
    rw [← String.toList_eq_nil_iff.1 htext, x.tokens_eq, length_append] at hone
    rcases x.derives.head with ⟨-, hnil⟩ | ⟨t, ts, -, -, hts, -⟩
    · cases hnil
    · rw [hts] at hone
      simp at hone
  | cons c cs =>
    refine ⟨c, cs, rfl, ?_⟩
    rw [htext, takeWhile_cons] at hstart
    split at hstart
    · cases hstart
    · rename_i hblank
      have hgaps : ∀ c ∈ [' ', '\t', '\x0c'], Text.isBlank c :=
        all_iff_forall_prop.1 (by decide)
      rw [Bool.eq_false_iff]
      intro hgap
      simp only [Lexer.isGap, Bool.or_eq_true, beq_iff_eq] at hgap
      exact hblank (hgaps c (by simpa [or_assoc] using hgap))

theorem embed {p : Progress} (hhosts : (top p.stack).Hosts) {n : Nat} (hopen : p.layout.brackets ≤ n)
    {d : Char} (hd : d ∈ Lexer.separators) (hgap : Lexer.isGap d = false) (w : List Char) :
    ∃ q f, Eats p.stack x.tokens q.stack ∧
      f.state = (top p.stack).next .source (.category (.rule .test)) ∧
      (∀ k ∈ (rule .test).followers, Settles k q.stack (f :: p.stack)) ∧
      q.layout.levels = p.layout.levels ∧ q.layout.brackets ≤ n ∧
      ∀ {root : Tree}, ReadsTo (d :: w) q root → ReadsTo (x.text.toList ++ d :: w) p root := by
  obtain ⟨-, _, hwalks⟩ := x.normalize_text
  obtain ⟨mid, mid', f, heats, hf, hsettles⟩ := x.derives.eatsBoth_test hhosts
  have hinline := x.derives.kind_ne_newline (forall_mem_singleton.2 (by decide))
  have hplace : x.newline.span.start = 0 + x.text.toList.length := by
    rw [x.stop, String.length_toList, Nat.zero_add]
  obtain ⟨q, rfl, hlevels, hbrackets, hq⟩ := hwalks.embed rfl x.tokens_eq hplace hinline heats
    hhosts.accepts (fun _ => hhosts.name) ⟨Nat.zero_le _, (Nat.zero_add n).symm ▸ hopen⟩ hd hgap w
  refine ⟨q, f, heats.eats.2, hf, hsettles, hlevels, hbrackets, fun hreads => ?_⟩
  obtain ⟨ts, r, tree, hwalks, hcloses⟩ := hreads.walks (0 + x.text.toList.length)
  obtain ⟨ts', hwalks'⟩ := hq hwalks
  exact ⟨0, ts', r, tree, hwalks', hcloses⟩

theorem exists_root : ∃ tree : Tree, x.root = (tree.numberFrom 0).1 ∧
    tree.unplaced = x.tree.program := by
  obtain ⟨mid, tree, heats, hfinishes, htree⟩ := x.derives.program.finishes
  obtain ⟨q, f, heats', -, -, hlevels, hbrackets, hq⟩ := x.embed (p := {}) hosts_initial
    (Nat.le_refl 0) (d := '\n') (by decide) (by decide) []
  cases heats.of_append heats' with
  | cons hfeeds hrest =>
    cases hrest
    have hreads := hq (.newline hlevels (Nat.le_zero.1 hbrackets) hfeeds hfinishes)
    rw [← x.normalize_text.1] at hreads
    obtain ⟨tree', hparse, htree'⟩ := hreads.parse
    rw [x.parsed] at hparse
    refine ⟨tree', Except.ok.inj hparse, ?_⟩
    rw [htree']
    exact (singleton_inj.1 htree).symm

end Expression

/-! ## Places for elements -/

namespace State

/-- After the opening parenthesis of a group. -/
@[irreducible]
def opened : State := initial.next .source (.terminal .leftParen)

/-- After the first element. -/
@[irreducible]
def single : State := opened.next .source (.category (.rule .test))

/-- After several elements. -/
@[irreducible]
def several : State := single.next .source (.category (.run .commaTestsOrStars))

/-- After a comma. -/
def comma (s : State) : State := s.next .source (.terminal .comma)

/-- After another element. -/
def another (s : State) : State := s.next .source (.category (.rule .test))

end State

/-- A comma and an element, alone or after others. -/
def Production.element (before : List Symbol) : Production :=
  ⟨.run .commaTestsOrStars, before ++ [.terminal .comma, .category (.rule .test)], none⟩

/-- What may stand between the first element of a group and a comma, and the state before the comma
then. -/
def State.breaks : List (List Symbol × State) :=
  [([], .single), ([.category (.run .commaTestsOrStars)], .several)]

/-- A stack that waits for an element of a group. -/
inductive Awaits : List Frame → Prop
  | first {opening : Frame} : opening.state = .opened → Awaits [opening]
  | next {before : List Symbol} {s : State} {frames : List Frame} {element opening : Frame} :
    element.state = .single → (before, s) ∈ breaks → frames.length = before.length + 1 →
    top (frames ++ [element, opening]) = s.comma → Awaits (frames ++ [element, opening])

namespace Awaits

variable {stack mid : List Frame} {f : Frame} {t : Token}

theorem hosts (h : Awaits stack) : (top stack).Hosts := by
  have hopened : opened.Reached := by
    unfold opened
    exact State.Reached.initial.next _
  have hsingle : single.Reached := by
    unfold single
    exact hopened.next _
  have hseveral : several.Reached := by
    unfold several
    exact hsingle.next _
  have hreached : ∀ e ∈ breaks, e.2.Reached :=
    forall_mem_cons.2 ⟨hsingle, forall_mem_singleton.2 hseveral⟩
  have hchecks : opened.hosts ∧ ∀ e ∈ breaks, e.2.comma.hosts := by
    decide +kernel
  cases h with
  | first hopening =>
    change (Frame.state _).Hosts
    rw [hopening]
    exact hopened.hosts hchecks.1
  | next _ hbreak _ htop =>
    rw [htop]
    exact ((hreached _ hbreak).next _).hosts (hchecks.2 _ hbreak)

theorem feeds_comma {before : List Symbol} {s : State} (hbreak : (before, s) ∈ breaks)
    (hf : f.state = s) (ht : t.kind = .comma) (below : List Frame) :
    Feeds t (f :: below) (some (⟨s.comma, .ofToken t⟩ :: f :: below)) := by
  have hshifts : ∀ e ∈ breaks, e.2.shifts .source .comma := by decide +kernel
  have hfeeds : Feeds t (f :: below) _ := .shift (by
    rw [ht]
    exact (congrArg (shifts .source · .comma) hf).trans (hshifts _ hbreak))
  rwa [ht, top, hf] at hfeeds

/-- After an element and a comma the reader waits for another element. -/
theorem step (h : Awaits stack) (hf : f.state = (top stack).another)
    (hsettles : ∀ k ∈ (rule .test).followers, Settles k mid (f :: stack))
    (ht : t.kind = .comma) : ∃ stack', Feeds t mid (some stack') ∧ Awaits stack' := by
  have hfollows : .comma ∈ (rule .test).followers := by decide +kernel
  have hsettles : Settles t.kind mid (f :: stack) := hsettles _ (ht ▸ hfollows)
  have hsingle : ([], single) ∈ breaks := .head _
  have hseveral : ([.category (.run .commaTestsOrStars)], several) ∈ breaks :=
    .tail _ (mem_singleton_self _)
  cases h with
  | @first opening hopening =>
    have hstate : f.state = .single := by
      rw [hf, single]
      exact congrArg another hopening
    exact ⟨_, hsettles.feeds (feeds_comma hsingle hstate ht _),
      @Awaits.next _ _ [_] _ _ hstate hsingle rfl rfl⟩
  | @next before s frames element opening helement hbreak hlength htop =>
    -- The elements after the first become one entry.
    have hmove : several ≠ [] ∧ ∀ e ∈ breaks,
        e.2.comma.another.shifts .source .comma = false ∧
          e.2.comma.another.reduction? .source .comma = some (.element e.1) := by decide +kernel
    obtain ⟨hshifts, hreduction⟩ := hmove.2 _ hbreak
    have hnext : element.state.next .source (.category (Production.element before).lhs) =
        .several := by
      rw [helement, several]
      rfl
    have htop' : top (f :: frames ++ [element, opening]) = s.comma.another := by
      rw [← htop]
      exact hf
    have hparts : (f :: frames).length = (Production.element before).rhs.length := by
      simp [Production.element, hlength]
    have hreduces : Reduces t.kind (f :: frames ++ [element, opening]) (.element before) := by
      refine ⟨?_, ?_, ?_⟩
      · rw [ht, htop', hreduction]
      · rw [← hparts, length_append]
        omega
      · rw [← hparts, drop_left]
        exact hnext ▸ hmove.1
    have hlhs : (Production.element before).lhs ≠ .source := by simp [Production.element]
    have hstep := hsettles.trans (.reduce (by rw [ht, ← hshifts, ← htop']; rfl) hlhs hreduces .refl)
    rw [← cons_append, reduce_append hparts] at hstep
    exact ⟨_, hstep.feeds (feeds_comma hseveral hnext ht _),
      @Awaits.next _ _ [_, _] _ _ helement hseveral rfl rfl⟩

end Awaits

/-! ## Groups -/

/-- The text of a group from an element on, to the end of its line. -/
def elementsText : List Expression → List Char
  | [] => [')', '\n']
  | [x] => x.text.toList ++ [',', ')', '\n']
  | x :: xs => x.text.toList ++ ',' :: ' ' :: elementsText xs

/-- The tokens of such a text. -/
def elementsTokens : List Expression → List Token
  | [] => [sign .rightParen ")", ⟨.newline, "\n", ⟨0, 1⟩⟩]
  | x :: xs => x.tokens ++ sign .comma "," :: elementsTokens xs

/-- Where the reader waits for an element it reads the rest of a group. -/
theorem readsTo_elements {xs : List Expression} {p : Progress} (hawaits : Awaits p.stack)
    (hlevels : p.layout.levels = []) (hopen : p.layout.brackets ≤ 1) {mid : List Frame} {tree : Tree}
    (heats : Eats p.stack (elementsTokens xs) mid) (hfinishes : Finishes mid (some tree)) :
    ReadsTo (elementsText xs) p tree.unplaced := by
  induction xs generalizing p with
  | nil =>
    cases heats with
    | cons hclose heats =>
      cases heats with
      | cons hnewline heats =>
        cases heats
        have hsign : (Terminal.rightParen, ")") ∈ groupSigns := by decide
        refine ReadsTo.groupSign hsign hclose fun q hstack hq hbrackets => ?_
        subst hstack
        refine .newline (hq.trans hlevels) (hbrackets.trans ?_) hnewline hfinishes
        exact Nat.sub_eq_zero_of_le hopen
  | cons x xs ih =>
    -- What comes after the comma, unless that closes the group, starts with no blank.
    obtain ⟨rest, hrest, htext⟩ : ∃ rest, elementsText (x :: xs) = x.text.toList ++ ',' :: rest ∧
        ∃ d ds, rest = d :: ds ∧ ∀ q root, ReadsTo (elementsText xs) q root → ReadsTo rest q root := by
      cases xs with
      | nil => exact ⟨_, rfl, _, _, rfl, fun _ _ => id⟩
      | cons y ys =>
        obtain ⟨c, cs, hc, hgap⟩ := y.exists_head
        refine ⟨_, rfl, _, _, rfl, fun q root hreads => ?_⟩
        have hstarts : ∃ ds, elementsText (y :: ys) = c :: ds := by
          cases ys <;> simp [elementsText, hc]
        obtain ⟨ds, hds⟩ := hstarts
        rw [hds] at hreads ⊢
        exact .blank hgap hreads
    obtain ⟨d, ds, rfl, hreads⟩ := htext
    obtain ⟨q, f, heats', hf, hsettles, hlevels', hbrackets, hq⟩ :=
      x.embed hawaits.hosts hopen (d := ',') (by decide) (by decide) (d :: ds)
    cases heats.of_append heats' with
    | cons hcomma heats =>
      obtain ⟨stack, hcomma', hawaits'⟩ := hawaits.step (t := sign .comma ",") hf hsettles rfl
      cases hcomma.unique hcomma'
      have hsign : (Terminal.comma, ",") ∈ groupSigns := by decide
      rw [hrest]
      refine hq (ReadsTo.groupSign hsign hcomma fun r hstack hr hbrackets' => ?_)
      subst hstack
      exact hreads r _ (ih hawaits' (hr.trans (hlevels'.trans hlevels)) (hbrackets'.trans_le hbrackets)
        heats)

/-- The rules that stand between an atom and an expression of it alone. -/
def Rule.rungs : List Rule := ladder.reverse.tail ++ [.test]

theorem Derives.test_of_atom (h : Derives [.category (.rule .atom)] ts [t]) :
    Derives [.category (.rule .test)] ts [t.enclosed Rule.rungs] := by
  have hrungs : (Rule.atom :: Rule.rungs).IsChain (·.holds ·) := by decide +kernel
  have hlast : Rule.rungs.getLastD .atom = .test := by decide
  have henclosed := h.enclosed hrungs
  rwa [hlast] at henclosed

/-- The tree of an expression that is a group. -/
def Tree.group (elements : List Tree) : Tree :=
  (Tree.node 0 .setLiteral ⟨0, 0⟩ [.node 0 .testListComp ⟨0, 0⟩ elements]).enclosed Rule.rungs

/-- The tokens of elements with commas before them. -/
def commaTokens (xs : List Expression) : List Token := xs.flatMap fun x => sign .comma "," :: x.tokens

theorem derives_comma : Derives [.terminal .comma] [sign .comma ","] [] := .terminal (sign .comma ",") .nil

theorem Derives.elements (h : Derives [.category (.run .commaTestsOrStars)] ts trees)
    (xs : List Expression) :
    Derives [.category (.run .commaTestsOrStars)] (ts ++ commaTokens xs)
      (trees ++ xs.map Expression.tree) := by
  have hp : Production.element [.category (.run .commaTestsOrStars)] ∈
    (run .commaTestsOrStars).productions := by decide
  induction xs generalizing ts trees with
  | nil => simpa [commaTokens] using h
  | cons x xs ih =>
    have hnext := (h.append (derives_comma.append x.derives)).of_production
      (mem_productions hp) nofun nofun
    have hall := ih hnext
    simpa [commaTokens, enclose, Production.element] using hall

/-- A group consists of its elements, with commas after them and in parentheses. -/
theorem derives_group (x : Expression) (xs : List Expression) :
    Derives [.category (.rule .test)]
      (sign .leftParen "(" :: x.tokens ++ commaTokens xs ++ [sign .comma ",", sign .rightParen ")"])
      [.group (x.tree :: xs.map Expression.tree)] := by
  have hlists : ∀ more ∈ [[], [Symbol.category (.run .commaTestsOrStars)]],
      (⟨.rule .testListComp, .category (.rule .test) :: more ++ [.terminal .comma],
        some .testListComp⟩ : Production) ∈ (rule .testListComp).productions := by decide
  have hatom : (⟨.rule .atom, [.terminal .leftParen, .category (.rule .testListComp),
      .terminal .rightParen], some .setLiteral⟩ : Production) ∈ (rule .atom).productions := by
    decide
  have hlist : Derives [.category (.rule .testListComp)]
      (x.tokens ++ commaTokens xs ++ [sign .comma ","])
      [.node 0 .testListComp ⟨0, 0⟩ (x.tree :: xs.map Expression.tree)] := by
    cases xs with
    | nil =>
      have h := (x.derives.append derives_comma).of_production
        (mem_productions (hlists [] (by simp))) (by decide) (by decide)
      simpa [commaTokens, enclose] using h
    | cons y ys =>
      have hp : Production.element [] ∈ (run .commaTestsOrStars).productions := by decide
      have hrun := ((derives_comma.append y.derives).of_production (mem_productions hp)
        (by decide) (by decide)).elements ys
      have h := (x.derives.append (hrun.append derives_comma)).of_production
        (mem_productions (hlists _ (.tail _ (mem_singleton_self _))))
        (by decide) (by decide)
      simpa [commaTokens, enclose, Production.element] using h
  have hopen : Derives [.terminal .leftParen] [sign .leftParen "("] [] :=
    .terminal (sign .leftParen "(") .nil
  have hclose : Derives [.terminal .rightParen] [sign .rightParen ")"] [] :=
    .terminal (sign .rightParen ")") .nil
  have h := ((hopen.append (hlist.append hclose)).of_production (mem_productions hatom)
    (by decide) (by decide)).test_of_atom
  simpa [Tree.group] using h

theorem elementsTokens_cons (x : Expression) (xs : List Expression) : elementsTokens (x :: xs) =
    x.tokens ++ commaTokens xs ++
      [sign .comma ",", sign .rightParen ")", ⟨.newline, "\n", ⟨0, 1⟩⟩] := by
  induction xs generalizing x with
  | nil => simp [elementsTokens, commaTokens]
  | cons y ys ih =>
    rw [elementsTokens, ih]
    simp [commaTokens]

/-- The source of a group with a comma after each element. -/
def groupOf (texts : List String) : String := "(" ++ ", ".intercalate texts ++ ",)"

theorem exists_elementsText (x : Expression) (xs : List Expression) :
    ∃ c cs, elementsText (x :: xs) = c :: cs := by
  obtain ⟨c, cs, hc, -⟩ := x.exists_head
  cases xs <;> simp [elementsText, hc]

theorem normalize_groupOf (x : Expression) (xs : List Expression) :
    normalize (groupOf ((x :: xs).map Expression.text)) = '(' :: elementsText (x :: xs) := by
  have helements : (", ".intercalate ((x :: xs).map Expression.text)).toList ++ [',', ')', '\n'] =
      elementsText (x :: xs) := by
    induction xs generalizing x with
    | nil => simp [elementsText]
    | cons y ys ih =>
      rw [elementsText, ← ih y]
      · simp [String.intercalate_cons_cons]
      · simp
  have hsource : (groupOf ((x :: xs).map Expression.text)).toList =
      '(' :: (", ".intercalate ((x :: xs).map Expression.text)).toList ++ [',', ')'] := by
    simp [groupOf]
  have hblank : Text.isBlank '(' = false ∧ Text.isBlank ')' = false := by decide
  have htrim : Text.trim (groupOf ((x :: xs).map Expression.text)).toList =
      (groupOf ((x :: xs).map Expression.text)).toList := by
    refine Text.trimBy_of_ends ?_ ?_
    · rw [hsource]
      simpa using hblank.1
    · rw [hsource, getLast?_append]
      simpa using hblank.2
  rw [normalize, htrim, hsource, ← helements]
  simp

/-- A group is read to the tree of its elements. -/
theorem parse_group (x : Expression) (xs : List Expression) :
    ∃ tree : Tree, parse (groupOf ((x :: xs).map Expression.text)) = .ok (tree.numberFrom 0).1 ∧
      tree.unplaced = (Tree.group ((x :: xs).map Expression.tree)).program := by
  obtain ⟨mid, tree, heats, hfinishes, htree⟩ := (derives_group x xs).program.finishes
  have htokens : sign .leftParen "(" :: elementsTokens (x :: xs) =
      (sign .leftParen "(" :: x.tokens ++ commaTokens xs ++
        [sign .comma ",", sign .rightParen ")"]) ++ [⟨.newline, "\n", ⟨0, 1⟩⟩] := by
    rw [elementsTokens_cons]
    simp
  rw [← htokens] at heats
  cases heats with
  | cons hopen heats =>
    have hshifts : initial.shifts .source .leftParen := by decide +kernel
    have hshift : Feeds (sign .leftParen "(") [] _ := .shift hshifts
    cases hopen.unique hshift
    have hstate : initial.next .source (.terminal .leftParen) = .opened := by
      unfold opened
      rfl
    have hawaits : Awaits [⟨initial.next .source (.terminal .leftParen),
      .ofToken (sign .leftParen "(")⟩] := .first hstate
    obtain ⟨c, cs, hc⟩ := exists_elementsText x xs
    have hreads : ReadsTo ("(".toList ++ c :: cs) {} tree.unplaced := by
      refine ReadsTo.groupSign (by decide) hshift fun q hstack hlevels hbrackets => ?_
      rw [← hc]
      refine readsTo_elements (hstack.symm ▸ hawaits) hlevels (Nat.le_of_eq hbrackets) ?_ hfinishes
      exact hstack.symm ▸ heats
    have hreads : ReadsTo (normalize (groupOf ((x :: xs).map Expression.text))) {} tree.unplaced := by
      rw [normalize_groupOf, hc]
      exact hreads
    obtain ⟨tree', hparse, htree'⟩ := hreads.parse
    exact ⟨tree', hparse, htree'.trans (singleton_inj.1 htree).symm⟩

end QueryScribe
