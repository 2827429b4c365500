import QueryScribe.Proofs.Reader.Running

/-!
# Where things stand

Every token of a text stands where its characters are, and a node covers what is below it: its
children lie inside it, one after the other (`Tree.Placed`). This is an invariant of the stack of the
reader (`Parser.Laid`): its entries follow each other in the text. The tokens that open and close
blocks borrow the place of a line break that is already on the stack. So they need not come after
what is below them, but they end no earlier, and they leave no nodes.

`spans_of_parse` puts together what this means for a tree that was read.
-/

namespace QueryScribe

open List

/-! ## Spans -/

namespace Span

/-- A span that lies inside another one. -/
def Within (s t : Span) : Prop := t.start ≤ s.start ∧ s.stop ≤ t.stop

/-- A span that ends before another one starts. -/
def Before (s t : Span) : Prop := s.stop ≤ t.start

/-- A span of a text. -/
def Of (text : List Char) (s : Span) : Prop := s.start ≤ s.stop ∧ s.stop ≤ text.length

variable {s t : Span}

theorem Within.trans {u : Span} (h : s.Within t) (h' : t.Within u) : s.Within u :=
  ⟨h'.1.trans h.1, h.2.trans h'.2⟩

theorem Before.of_within {s' t' : Span} (h : s.Before t) (hs : s'.Within s) (ht : t'.Within t) :
    s'.Before t' :=
  (hs.2.trans h).trans ht.1

theorem slice_eq_of_within (text : List Char) (h : s.Within t) :
    s.slice text = (⟨s.start - t.start, s.stop - t.start⟩ : Span).slice (t.slice text) := by
  obtain ⟨hstart, hstop⟩ := h
  unfold slice
  dsimp only
  rw [drop_take, take_take, drop_drop]
  congr 1
  · omega
  · congr 1
    omega

end Span

/-! ## Trees -/

namespace Tree

mutual

/-- The tokens of a tree, from left to right. -/
def leaves : Tree → List Token
  | leaf _ token => [token]
  | node _ _ _ children => leavesIn children

/-- The tokens of some trees, from left to right. -/
def leavesIn : List Tree → List Token
  | [] => []
  | t :: ts => leaves t ++ leavesIn ts

end

/-- A tree that stands in a text: its tokens are where their characters are, and each node covers its
children, which come one after the other. -/
inductive Placed (text : List Char) : Tree → Prop
  | leaf {id : Nat} {token : Token} : token.span.Of text → token.span.start < token.span.stop →
    token.text.toList = token.span.slice text → Placed text (leaf id token)
  | node {id : Nat} {rule : Rule} {span : Span} {children : List Tree} : span.Of text →
    (∀ c ∈ children, Placed text c) → (∀ c ∈ children, c.span.Within span) →
    (children.Pairwise fun c d => c.span.Before d.span) → Placed text (node id rule span children)

theorem leavesIn_eq_flatMap (ts : List Tree) : leavesIn ts = ts.flatMap leaves := by
  induction ts with
  | nil => rfl
  | cons t ts ih => rw [leavesIn, ih, flatMap_cons]

theorem span_numberFrom (n : Nat) (t : Tree) : (t.numberFrom n).1.span = t.span := by
  cases t with
  | leaf => rfl
  | node => rfl

theorem map_span_numberFromIn (n : Nat) (ts : List Tree) :
    (numberFromIn n ts).1.map span = ts.map span := by
  induction ts generalizing n with
  | nil => rfl
  | cons t ts ih => rw [numberFromIn, map_cons, map_cons, span_numberFrom, ih]

namespace Placed

variable {text : List Char} {t : Tree}

theorem numberFrom (h : t.Placed text) (n : Nat) : (t.numberFrom n).1.Placed text := by
  induction h generalizing n with
  | leaf hspan hlt htext => exact .leaf hspan hlt htext
  | @node id rule span children hspan _ hwithin hordered ih =>
    have hspans := map_span_numberFromIn (n + 1) children
    refine .node hspan ?_ ?_ ?_
    · intro c hc
      obtain ⟨d, hd, m, rfl⟩ := exists_of_mem_numberFromIn hc
      exact ih d hd m
    · intro c hc
      obtain ⟨d, hd, m, rfl⟩ := exists_of_mem_numberFromIn hc
      rw [span_numberFrom]
      exact hwithin d hd
    · have hmap := pairwise_map.2 hordered
      rw [← hspans] at hmap
      exact pairwise_map.1 hmap

theorem of_mem_nodes (h : t.Placed text) {s : Tree} (hs : s ∈ t.nodes) : s.Placed text := by
  induction h with
  | leaf => cases hs
  | node hspan hplaced hwithin hordered ih =>
    rcases mem_nodes_node.1 hs with rfl | ⟨c, hc, hs⟩
    · exact .node hspan hplaced hwithin hordered
    · exact ih c hc hs

theorem leaves (h : t.Placed text) : ∀ token ∈ t.leaves,
    token.text.toList = token.span.slice text ∧ token.span.start < token.span.stop ∧
      token.span.Within t.span := by
  induction h with
  | leaf hspan hlt htext =>
    intro token htoken
    rw [mem_singleton.1 htoken]
    exact ⟨htext, hlt, Nat.le_refl _, Nat.le_refl _⟩
  | node hspan _ hwithin _ ih =>
    intro token htoken
    rw [Tree.leaves, leavesIn_eq_flatMap] at htoken
    obtain ⟨c, hc, htoken⟩ := mem_flatMap.1 htoken
    obtain ⟨htext, hlt, hinside⟩ := ih c hc token htoken
    exact ⟨htext, hlt, hinside.trans (hwithin c hc)⟩

theorem pairwise_leaves (h : t.Placed text) :
    t.leaves.Pairwise fun s t => s.span.Before t.span := by
  induction h with
  | leaf => exact pairwise_singleton _ _
  | @node id rule span children hspan hplaced hwithin hordered ih =>
    rw [Tree.leaves, leavesIn_eq_flatMap, pairwise_flatMap]
    refine ⟨ih, hordered.imp_of_mem ?_⟩
    intro c d hc hd hbefore s hs u hu
    exact hbefore.of_within ((hplaced c hc).leaves s hs).2.2 ((hplaced d hd).leaves u hu).2.2

end Placed

end Tree

/-! ## The stack -/

/-- The tokens that open and close blocks. -/
def Terminal.isMark : Terminal → Bool
  | .indent | .dedent => true
  | _ => false

/-- The symbols that are read from tokens that open and close blocks. -/
def Symbol.isMark : Symbol → Bool
  | .terminal t => t.isMark
  | .category _ => false

theorem Production.head_not_isMark (p : Production) (hp : p ∈ productions) :
    ∀ x ∈ p.rhs.head?, x.isMark = false := by
  intro x hx
  obtain ⟨hindent, hdedent⟩ := (rhs_of_mem_productions p hp).2.2.2
  fun_cases Symbol.isMark x with
  | case1 k =>
    fun_cases Terminal.isMark k with
    | case1 => exact absurd hx hindent
    | case2 => exact absurd hx hdedent
    | case3 => rfl
  | case2 => rfl

namespace Parser

/-- What was read for a symbol stands in a text and covers its trees, which come one after the
other. -/
structure Fragment.Placed (text : List Char) (f : Fragment) : Prop where
  span : f.span.Of text
  trees : ∀ t ∈ f.trees, t.Placed text ∧ t.span.Within f.span
  ordered : f.trees.Pairwise fun s t => s.span.Before t.span

/-- A span that comes before the place of what was read for a symbol. -/
structure Precedes (s : Span) (x : Symbol) (t : Span) : Prop where
  start : s.start ≤ t.start
  stop : s.stop ≤ t.stop
  apart : x.isMark = false → s.Before t

/-- A stack whose entries stand in a text one after the other. -/
def Laid (text : List Char) : List Frame → List Symbol → Prop
  | [], [] => True
  | f :: below, x :: symbols =>
    f.fragment.Placed text ∧ (x.isMark = true → f.fragment.trees = []) ∧
      (∀ g ∈ below, Precedes g.fragment.span x f.fragment.span) ∧ Laid text below symbols
  | _, _ => False

/-- A stack all of whose entries start and end no later than a span. -/
def Reaches (stack : List Frame) (last : Span) : Prop :=
  ∀ f ∈ stack, f.fragment.span.start ≤ last.start ∧ f.fragment.span.stop ≤ last.stop

variable {text : List Char}

variable {t : Token} {fs : List Fragment} {last : Span}

theorem Fragment.placed_ofToken (hspan : t.span.Of text)
    (hleaf : t.kind.isDelimiter = false → Tree.Placed text (.leaf 0 t)) :
    (Fragment.ofToken t).Placed text := by
  unfold ofToken
  split
  · exact ⟨hspan, nofun, .nil⟩
  · rename_i hdelimiter
    refine ⟨hspan, ?_, pairwise_singleton _ _⟩
    intro s hs
    rw [mem_singleton.1 hs]
    exact ⟨hleaf (Bool.not_eq_true _ ▸ hdelimiter), Nat.le_refl _, Nat.le_refl _⟩

theorem Fragment.extent_concat (h : fs ≠ []) (f : Fragment) :
    extent (fs ++ [f]) = (extent fs).to f.span := by
  cases fs with
  | nil => exact absurd rfl h
  | cons g gs =>
    have hlast : ((g :: gs) ++ [f]).getLastD g = f := getLastD_concat ..
    rw [cons_append, extent, ← cons_append, hlast]
    rfl

/-- What several parts leave together, if a production takes them. -/
abbrev Fragment.all (fs : List Fragment) : Fragment := ⟨extent fs, fs.flatMap (·.trees)⟩

theorem Fragment.Placed.join (h : (all fs).Placed text) (node : Option Rule) :
    (Fragment.join node fs).Placed text := by
  unfold Fragment.join
  cases node with
  | none => exact h
  | some rule =>
    refine ⟨h.span, ?_, pairwise_singleton _ _⟩
    intro t ht
    rw [mem_singleton.1 ht]
    exact ⟨.node h.span (fun c hc => (h.trees c hc).1) (fun c hc => (h.trees c hc).2) h.ordered,
      Nat.le_refl _, Nat.le_refl _⟩

theorem Fragment.Placed.concat {f : Fragment} {x : Symbol}
    (h : fs ≠ [] → (all fs).Placed text ∧ Precedes (extent fs) x f.span) (hf : f.Placed text)
    (hmark : x.isMark → f.trees = []) : (all (fs ++ [f])).Placed text := by
  by_cases hne : fs = []
  · have hall : all (fs ++ [f]) = f := by simp [hne, all, extent, Span.to]
    rwa [hall]
  · obtain ⟨hfs, hprecedes⟩ := h hne
    obtain ⟨hstart, hstop, hapart⟩ := hprecedes
    have hextent := extent_concat hne f
    have hfspan := hf.span
    refine ⟨?_, ?_, ?_⟩
    · dsimp only
      rw [hextent]
      exact ⟨hstart.trans hfspan.1, hfspan.2⟩
    · intro t ht
      dsimp only at ht ⊢
      rw [hextent]
      rw [flatMap_append, flatMap_singleton] at ht
      rcases mem_append.1 ht with ht | ht
      · obtain ⟨hplaced, hwithin⟩ := hfs.trees t ht
        exact ⟨hplaced, hwithin.1, hwithin.2.trans hstop⟩
      · obtain ⟨hplaced, hwithin⟩ := hf.trees t ht
        exact ⟨hplaced, hstart.trans hwithin.1, hwithin.2⟩
    · dsimp only
      rw [flatMap_append, flatMap_singleton, pairwise_append]
      refine ⟨hfs.ordered, hf.ordered, ?_⟩
      intro s hs t ht
      cases hx : x.isMark with
      | true =>
        rw [hmark hx] at ht
        cases ht
      | false => exact (hapart hx).of_within (hfs.trees s hs).2 (hf.trees t ht).2

namespace Laid

variable {stack : List Frame} {symbols : List Symbol}

/-- The upper part of a stack stands in the text as one, after what is below it. -/
theorem take_drop {upper lower : List Symbol} (h : Laid text stack (upper ++ lower))
    (hne : upper ≠ []) (hfirst : ∀ x ∈ upper.getLast?, x.isMark = false) {parts : List Fragment}
    (hparts : parts = (stack.take upper.length).reverse.map (·.fragment)) :
    (Fragment.all parts).Placed text ∧ Laid text (stack.drop upper.length) lower ∧
      (∀ g ∈ stack.drop upper.length, ∀ x : Symbol,
        Precedes g.fragment.span x (Fragment.extent parts)) ∧
      ∃ f ∈ stack.head?, (Fragment.extent parts).start ≤ f.fragment.span.start ∧
        (Fragment.extent parts).stop = f.fragment.span.stop := by
  induction upper generalizing stack parts with
  | nil => exact absurd rfl hne
  | cons x upper ih =>
    cases stack with
    | nil => cases h
    | cons f below =>
      obtain ⟨hplaced, hmark, hprecedes, hbelow⟩ := h
      rw [length_cons, take_succ_cons, reverse_cons, map_append] at hparts
      by_cases hupper : upper = []
      · -- One entry: it is no mark, so all that is below it ends before it.
        subst hupper
        obtain rfl : parts = [f.fragment] := by simpa using hparts
        have hx : x.isMark = false := hfirst x rfl
        have hall : Fragment.all [f.fragment] = f.fragment := by
          simp [Fragment.all, Fragment.extent, Span.to]
        rw [hall]
        refine ⟨hplaced, hbelow, fun g hg y => ?_, f, rfl, Nat.le_refl _, rfl⟩
        obtain ⟨hstart, hstop, hapart⟩ := hprecedes g hg
        exact ⟨hstart, hstop, fun _ => hapart hx⟩
      · -- More entries: the lower ones end where the entry below the top ends.
        have hlast : ∀ y ∈ upper.getLast?, y.isMark = false := by
          intro y hy
          refine hfirst y ?_
          rw [getLast?_cons_of_ne_nil hupper]
          exact hy
        obtain ⟨hall, hlower, hless, g, hg, hstart, hstop⟩ := ih hbelow hupper hlast rfl
        have hgf := hprecedes g (mem_of_mem_head? hg)
        rw [map_singleton] at hparts
        have hnonempty : (below.take upper.length).reverse.map (·.fragment) ≠ [] := by
          intro hnil
          rw [map_eq_nil_iff, reverse_eq_nil_iff, take_eq_nil_iff] at hnil
          rcases hnil with hlength | hbelow
          · exact hupper (length_eq_zero_iff.1 hlength)
          · rw [hbelow] at hg
            cases hg
        have htop : Precedes (Fragment.extent ((below.take upper.length).reverse.map (·.fragment))) x
            f.fragment.span := by
          refine ⟨hstart.trans hgf.start, hstop ▸ hgf.stop, fun hx => ?_⟩
          have hapart := hgf.apart hx
          unfold Span.Before at hapart ⊢
          omega
        have hextent := Fragment.extent_concat hnonempty f.fragment
        rw [hparts, hextent]
        refine ⟨Fragment.Placed.concat (fun _ => ⟨hall, htop⟩) hplaced hmark, hlower, ?_, f, rfl,
          hstart.trans hgf.start, rfl⟩
        intro g' hg' y
        obtain ⟨hstart', hstop', hapart'⟩ := hless g' hg' y
        exact ⟨hstart', hstop'.trans htop.stop, hapart'⟩

theorem reduce {p : Production} {last : Span} (h : Laid text stack symbols)
    (hreaches : Reaches stack last) (hp : p ∈ productions) (hne : p.rhs ≠ [])
    (hrhs : p.rhs.reverse <+: symbols) :
    Laid text (Parser.reduce .source p stack) (.category p.lhs :: symbols.drop p.rhs.length) ∧
      Reaches (Parser.reduce .source p stack) last := by
  obtain ⟨lower, rfl⟩ := hrhs
  have hfirst : ∀ x ∈ p.rhs.reverse.getLast?, x.isMark = false := by
    rw [getLast?_reverse]
    exact p.head_not_isMark hp
  obtain ⟨hall, hlower, hless, f, hf, hstart, hstop⟩ :=
    h.take_drop (reverse_eq_nil_iff.not.2 hne) hfirst rfl
  rw [length_reverse] at hall hlower hless hstart hstop
  rw [← length_reverse, drop_left]
  refine ⟨⟨hall.join p.node, nofun, fun g hg => hless g hg _, hlower⟩, ?_⟩
  intro g hg
  rcases mem_cons.1 hg with rfl | hg
  · obtain ⟨hfstart, hfstop⟩ := hreaches f (mem_of_mem_head? hf)
    exact ⟨hstart.trans hfstart, hstop.le.trans hfstop⟩
  · exact hreaches g (mem_of_mem_drop hg)

theorem push {t : Token} {last : Span} (h : Laid text stack symbols)
    (hreaches : Reaches stack last) (hspan : t.span.Of text)
    (hleaf : t.kind.isDelimiter = false → Tree.Placed text (.leaf 0 t))
    (hafter : Precedes last (.terminal t.kind) t.span) (s : State) :
    Laid text (⟨s, .ofToken t⟩ :: stack) (.terminal t.kind :: symbols) ∧
      Reaches (⟨s, .ofToken t⟩ :: stack) t.span := by
  obtain ⟨hstart, hstop, hapart⟩ := hafter
  have hmark : t.kind.isMark → (Fragment.ofToken t).trees = [] := by
    intro hmark
    have hdelimiter : t.kind.isDelimiter := by
      cases hkind : t.kind <;> rw [hkind] at hmark <;> first | rfl | cases hmark
    simp [Fragment.ofToken, hdelimiter]
  refine ⟨⟨Fragment.placed_ofToken hspan hleaf, hmark, fun g hg => ?_, h⟩, fun g hg => ?_⟩
  · obtain ⟨hgstart, hgstop⟩ := hreaches g hg
    exact ⟨hgstart.trans hstart, hgstop.trans hstop, fun hx => hgstop.trans (hapart hx)⟩
  · rcases mem_cons.1 hg with rfl | hg
    · exact ⟨Nat.le_refl _, Nat.le_refl _⟩
    · obtain ⟨hgstart, hgstop⟩ := hreaches g hg
      exact ⟨hgstart.trans hstart, hgstop.trans hstop⟩

end Laid

/-! ## Reading -/

/-- A stack of the reader that stands in a text up to a span. -/
def Stands (text : List Char) (stack : List Frame) (last : Span) : Prop :=
  (∃ symbols, Sound Symbol.Roots stack symbols ∧ Laid text stack symbols) ∧ Reaches stack last

/-- A token that can be put on a stack that reaches to a span. -/
structure Fits (text : List Char) (last : Span) (t : Token) : Prop where
  lexed : t.Lexed
  kind : t.kind ≠ .endOfInput
  span : t.span.Of text
  leaf : t.kind.isDelimiter = false → Tree.Placed text (.leaf 0 t)
  after : Precedes last (.terminal t.kind) t.span

theorem Feeds.stands {stack result : List Frame} (h : Feeds t stack (some result))
    (hstands : Stands text stack last) (ht : Fits text last t) : Stands text result t.span := by
  generalize hr : some result = r at h
  induction h with
  | shift _ =>
    cases hr
    obtain ⟨⟨symbols, hsound, hlaid⟩, hreaches⟩ := hstands
    obtain ⟨hlaid', hreaches'⟩ := hlaid.push hreaches ht.span ht.leaf ht.after _
    exact ⟨⟨.terminal t.kind :: symbols, ⟨rfl, closed_roots.token t ht.lexed, hsound⟩, hlaid'⟩,
      hreaches'⟩
  | reduce _ hp _ ih =>
    obtain ⟨⟨symbols, hsound, hlaid⟩, hreaches⟩ := hstands
    obtain ⟨-, hne⟩ := hsound.rhs_ne_nil ht.kind hp.complete
    obtain ⟨hmem, hrhs, -⟩ := hsound.rhs_of_reduction? hp.complete
    obtain ⟨hlaid', hreaches'⟩ := hlaid.reduce hreaches hmem hne hrhs
    exact ih ⟨⟨_, hsound.reduce closed_roots hmem hrhs, hlaid'⟩, hreaches'⟩ hr
  | refuse => cases hr

/-- A tree that is found at the end stands in the text. -/
theorem Finishes.placed {stack : List Frame} {tree : Tree} (h : Finishes stack (some tree))
    (hstands : Stands text stack last) : tree.Placed text := by
  generalize hr : some tree = r at h
  induction h generalizing last with
  | accept _ htrees =>
    cases hr
    obtain ⟨⟨symbols, -, hlaid⟩, -⟩ := hstands
    cases symbols with
    | nil => cases hlaid
    | cons x symbols =>
      obtain ⟨hplaced, -⟩ := hlaid
      exact (hplaced.trees tree (htrees ▸ (.head _))).1
  | @reduce stack p _ _ hp _ ih =>
    obtain ⟨⟨symbols, hsound, hlaid⟩, hreaches⟩ := hstands
    obtain ⟨hmem, hrhs, -⟩ := hsound.rhs_of_reduction? hp.complete
    by_cases hne : p.rhs = []
    · -- A program of nothing stands at the start of the text.
      obtain rfl := hsound.eq_nil_of_rhs_eq_nil hp.complete hne
      have hnone : (Fragment.all []).Placed text := ⟨⟨Nat.le_refl _, Nat.zero_le _⟩, nofun, .nil⟩
      have hstands' : Stands text (Parser.reduce .source p []) ⟨0, 0⟩ := by
        have hsound' := hsound.reduce closed_roots hmem hrhs
        simp only [Parser.reduce, take_nil, drop_nil, reverse_nil,
          map_nil] at hsound' ⊢
        refine ⟨⟨_, hsound', hnone.join p.node, nofun, nofun, ?_⟩, fun f hf => ?_⟩
        · rw [hne]
          exact hlaid
        · rw [mem_singleton.1 hf]
          exact ⟨Nat.le_refl 0, Nat.le_refl 0⟩
      exact ih hstands' hr
    · obtain ⟨hlaid', hreaches'⟩ := hlaid.reduce hreaches hmem hne hrhs
      exact ih ⟨⟨_, hsound.reduce closed_roots hmem hrhs, hlaid'⟩, hreaches'⟩ hr
  | refuse => cases hr

theorem Fits.of_isMark (hmark : t.kind.isMark) (hspan : t.span.Of text) :
    Fits text t.span t := by
  have hkind : t.kind = .indent ∨ t.kind = .dedent := by
    cases hkind : t.kind <;> rw [hkind] at hmark <;> first | exact .inl rfl | exact .inr rfl | cases hmark
  have hapart (h : (Symbol.terminal t.kind).isMark = false) : t.span.Before t.span :=
    absurd hmark (Bool.not_eq_true _ ▸ h)
  obtain ⟨kind, _, _⟩ := t
  refine ⟨?_, ?_, hspan, ?_, Nat.le_refl _, Nat.le_refl _, hapart⟩
  all_goals obtain rfl | rfl := hkind
  · exact Token.lexed_of_notMem (by decide) (by decide) _ _
  · exact Token.lexed_of_notMem (by decide) (by decide) _ _
  all_goals nofun

theorem FeedsAll.stands_of_marks {p q : Progress} {ts : List Token} (h : FeedsAll p ts (.ok q))
    (hstands : Stands text p.stack last) (hlast : last.Of text)
    (hts : ∀ t ∈ ts, t.kind.isMark ∧ t.span = last) : Stands text q.stack last := by
  generalize hr : Except.ok q = r at h
  induction h with
  | nil => cases hr; exact hstands
  | @cons p t ts stack _ hfeeds _ ih =>
    obtain ⟨hmark, hspan⟩ := hts t (.head _)
    subst hspan
    have hstands' := hfeeds.stands hstands (.of_isMark hmark hlast)
    exact ih hstands' (fun t ht => hts t (.tail _ ht)) hr
  | refuse => cases hr

end Parser

/-- Layout drops a line break, or gives the token of the text and marks at its place. -/
theorem Layout.step_eq (l : Layout) (t : Token) : (l.step t).1 = [] ∨
    ∃ marks, (l.step t).1 = t :: marks ∧ ∀ s ∈ marks, s.kind.isMark ∧ s.span = t.span := by
  unfold step
  split
  · split
    · exact .inl rfl
    · right
      dsimp only
      split
      · refine ⟨_, rfl, fun s hs => ?_⟩
        rw [mem_singleton.1 hs]
        exact ⟨rfl, rfl⟩
      · refine ⟨_, rfl, fun s hs => ?_⟩
        obtain ⟨_, -, rfl⟩ := mem_map.1 hs
        exact ⟨rfl, rfl⟩
  all_goals exact .inr ⟨[], rfl, nofun⟩

namespace Parser

variable {text : List Char}

theorem Takes.stands {p q : Progress} {t : Token} (h : Takes p t (.ok q))
    (hstands : Stands text p.stack p.seen) (ht : Fits text p.seen t) :
    Stands text q.stack q.seen ∧ q.seen = t.span := by
  cases h with
  | @take q layout hfeeds hlayout =>
    refine ⟨?_, rfl⟩
    rcases p.layout.step_eq t with hstep | ⟨marks, hstep, hmarks⟩
    · rw [hstep] at hfeeds
      cases hfeeds
      obtain ⟨hlaid, hreaches⟩ := hstands
      refine ⟨hlaid, fun f hf => ?_⟩
      obtain ⟨hstart, hstop⟩ := hreaches f hf
      exact ⟨hstart.trans ht.after.start, hstop.trans ht.after.stop⟩
    · rw [hstep] at hfeeds
      cases hfeeds with
      | cons hfirst hrest => exact hrest.stands_of_marks (hfirst.stands hstands ht) ht.span hmarks

/-- A tree that is read from the rest of a text stands in the text. -/
theorem Reads.placed {offset : Nat} {rest : List Char} {p : Progress} {tree : Tree}
    (h : Reads offset rest p (.ok tree)) (hrest : rest = text.drop offset)
    (hstands : Stands text p.stack p.seen) (hseen : p.seen.Of text) (hoffset : p.seen.stop ≤ offset) :
    tree.Placed text := by
  generalize hr : Except.ok tree = r at h
  induction h with
  | finish hfeeds hfinishes =>
    cases hr
    refine hfinishes.placed (hfeeds.stands_of_marks hstands hseen fun t ht => ?_)
    obtain ⟨_, -, rfl⟩ := mem_map.1 ht
    exact ⟨rfl, rfl⟩
  | incomplete => cases hr
  | unclosed => cases hr
  | stray => cases hr
  | @skip offset m c cs p _ hscan hpos _ ih =>
    refine ih ?_ hstands hseen (by omega) hr
    rw [hrest, drop_drop]
  | @take offset m c cs p q kind _ hscan hpos htakes _ ih =>
    obtain ⟨-, hle⟩ := Lexer.scan_length hscan
    have hlength : offset + m ≤ text.length := by
      rw [hrest, length_drop] at hle
      dsimp only at hle
      omega
    have hspan : Span.Of text ⟨offset, offset + m⟩ := ⟨Nat.le_add_right _ _, hlength⟩
    have hfits : Fits text p.seen
        ⟨kind, String.ofList ((c :: cs).take m), ⟨offset, offset + m⟩⟩ := by
      refine ⟨Lexer.lexed_of_scan hscan _, ?_, hspan, fun _ => .leaf hspan ?_ ?_, ?_⟩
      · have hwritten := Lexer.isWritten_of_scan hscan
        rintro rfl
        cases hwritten
      · exact Nat.lt_add_of_pos_right hpos
      · rw [String.toList_ofList, hrest, Span.slice, Nat.add_sub_cancel_left]
      · exact ⟨hseen.1.trans hoffset, hoffset.trans (Nat.le_add_right _ _), fun _ => hoffset⟩
    obtain ⟨hstands', hseen'⟩ := htakes.stands hstands hfits
    refine ih ?_ hstands' (hseen' ▸ hspan) (hseen' ▸ Nat.le_refl _) hr
    rw [hrest, drop_drop]
  | refuse => cases hr

end Parser

theorem Tree.placed_of_parse {source : String} {root : Tree} (h : parse source = .ok root) :
    root.Placed (normalize source) := by
  obtain ⟨result, hreads, hparse⟩ := reads_parse source
  cases result with
  | error fault => rw [h] at hparse; cases hparse
  | ok tree =>
    rw [h] at hparse
    cases hparse
    have hstands : Parser.Stands (normalize source) [] ⟨0, 0⟩ := ⟨⟨[], trivial, trivial⟩, nofun⟩
    have hseen : Span.Of (normalize source) ⟨0, 0⟩ := ⟨Nat.le_refl _, Nat.zero_le _⟩
    exact (hreads.placed rfl hstands hseen (Nat.le_refl 0)).numberFrom 0

/-- The tokens of a tree that was read are where their characters are, one after the other. Each node
covers its children, which come one after the other as well, and its text is a stretch of the source
in which every token below it has its place. -/
theorem spans_of_parse {source : String} {root : Tree} (h : parse source = .ok root) :
    (∀ token ∈ root.leaves, token.text.toList = token.span.slice (normalize source)) ∧
      (root.leaves.Pairwise fun s t =>
        s.span.start < s.span.stop ∧ s.span.stop ≤ t.span.start ∧ t.span.start < t.span.stop) ∧
      ∀ node ∈ root.nodes,
        (∀ child ∈ node.children, child.span.Within node.span) ∧
          (node.children.Pairwise fun c d => c.span.Before d.span) ∧
          node.text (normalize source) = node.span.slice (normalize source) ∧
          ∀ token ∈ node.leaves, token.span.Within node.span ∧ token.text.toList =
            (⟨token.span.start - node.span.start, token.span.stop - node.span.start⟩ : Span).slice
              (node.text (normalize source)) := by
  have hplaced := Tree.placed_of_parse h
  refine ⟨fun token htoken => (hplaced.leaves token htoken).1, ?_, fun node hnode => ?_⟩
  · refine hplaced.pairwise_leaves.imp_of_mem fun hs ht hbefore => ?_
    exact ⟨(hplaced.leaves _ hs).2.1, hbefore, (hplaced.leaves _ ht).2.1⟩
  · have hnodePlaced := hplaced.of_mem_nodes hnode
    have hleaves := hnodePlaced.leaves
    cases hnodePlaced with
    | leaf => cases Tree.isNode_of_mem_nodes hnode
    | node _ _ hwithin hordered =>
      refine ⟨hwithin, hordered, rfl, fun token htoken => ?_⟩
      obtain ⟨htext, -, hinside⟩ := hleaves token htoken
      refine ⟨hinside, ?_⟩
      rw [htext, Span.slice_eq_of_within _ hinside]
      rfl

/-- A block that a mark closes at the place of the line break inside it. -/
theorem spans_of_block :
    ∃ root ∈ (parse "if x:\n  (y,)\nz").toOption, root.leaves.map (·.text) = ["x", "y", "z"] ∧
      ∀ node ∈ root.nodes, ∀ child ∈ node.children, child.span.Within node.span := by
  have hparse : ∃ root ∈ (parse "if x:\n  (y,)\nz").toOption,
      root.leaves.map (·.text) = ["x", "y", "z"] := by decide +kernel
  obtain ⟨root, hroot, hleaves⟩ := hparse
  obtain ⟨-, -, hnodes⟩ := spans_of_parse (eq_ok_of_mem_toOption hroot)
  exact ⟨root, hroot, hleaves, fun node hnode => (hnodes node hnode).1⟩

end QueryScribe
