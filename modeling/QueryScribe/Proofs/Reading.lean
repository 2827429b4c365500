import Mathlib.Data.List.Forall2
import QueryScribe.Proofs.Lexing
import QueryScribe.Proofs.Numbering
import QueryScribe.Proofs.Reader.Tables

/-!
# What is read

A tree is read by putting tokens together as the productions of the grammar say. So what holds of
every token of a text, and of what a production makes of its parts if it holds of them, holds of
every tree that was read (`exists_of_parse_of_closed`). The parts of a production lie on the stack of
the reader: the symbols on top are those that the productions under way have behind them.
-/

namespace QueryScribe

open List

/-! ## The grammar -/

variable {p : Production}

theorem Category.lhs_of_mem_productions {c : Category} (h : p ∈ c.productions) : p.lhs = c := by
  cases c with
  | source => rw [mem_singleton.1 h]; rfl
  | rule r =>
    rcases mem_append.1 h with h | h
    · obtain ⟨rhs, -, rfl⟩ := mem_map.1 h
      rfl
    · obtain ⟨⟨phrase, node⟩, -, h⟩ := mem_flatMap.1 h
      obtain ⟨rhs, -, rfl⟩ := mem_map.1 h
      rfl
  | run r =>
    rcases mem_append.1 h with h | h
    · obtain ⟨rhs, -, rfl⟩ := mem_map.1 h
      rfl
    · obtain ⟨rhs, -, rfl⟩ := mem_map.1 h
      rfl

theorem Production.mem_of_mem_productions (h : p ∈ productions) : p ∈ p.lhs.productions := by
  obtain ⟨c, -, hc⟩ := mem_flatMap.1 h
  rwa [Category.lhs_of_mem_productions hc]

theorem Production.eq_start (h : p ∈ productions) (hlhs : p.lhs = .source) : p = .start := by
  have hmem := mem_of_mem_productions h
  rw [hlhs] at hmem
  exact mem_singleton.1 hmem

theorem Production.node_of_program (h : p ∈ productions)
    (hlhs : p.lhs = .rule .fileInput) : p.node = some .fileInput := by
  have hmem := mem_of_mem_productions h
  rw [hlhs] at hmem
  rcases mem_append.1 hmem with hmem | hmem
  · obtain ⟨rhs, -, rfl⟩ := mem_map.1 hmem
    rfl
  · cases hmem

/-! ## The stack -/

namespace Parser

/-- What holds of the tokens of a text and is kept by every production. -/
structure Closed (P : Symbol → List Tree → Prop) : Prop where
  token : ∀ t : Token, t.Lexed → P (.terminal t.kind) (Fragment.ofToken t).trees
  join : ∀ p ∈ productions, ∀ parts : List Fragment,
    List.Forall₂ (fun x part => P x part.trees) p.rhs parts →
      P (.category p.lhs) (Fragment.join p.node parts).trees

variable {P : Symbol → List Tree → Prop} {symbols : List Symbol} {stack : List Frame}

/-- A stack that was read for some symbols, the last of them first: each state follows its symbol,
and what was read for the symbol is as it should be. -/
def Sound (P : Symbol → List Tree → Prop) : List Frame → List Symbol → Prop
  | [], [] => True
  | f :: below, x :: symbols =>
    f.state = (top below).next .source x ∧ P x f.fragment.trees ∧ Sound P below symbols
  | _, _ => False

/-- The symbols on top of a stack are those that a production under way has behind it. Below them
its category can begin, unless it is the whole source that is under way. -/
theorem Sound.rhs_of_mem_top (h : Sound P stack symbols)
    {i : Item} (hi : i ∈ top stack) : i.production ∈ productions ∧
      ∃ done, i.production.rhs = done ++ i.rest ∧ done.reverse <+: symbols ∧
        (i.production = .start ∧ stack.length = done.length ∨
          (top (stack.drop done.length)).Begins i.production.lhs) := by
  induction stack generalizing symbols i with
  | nil =>
    rw [mem_singleton.1 hi]
    exact ⟨mem_flatMap.2 ⟨.source, .head _, .head _⟩, [], rfl,
      nil_prefix, .inl ⟨rfl, rfl⟩⟩
  | cons f below ih =>
    cases symbols with
    | nil => cases h
    | cons x symbols =>
      obtain ⟨hstate, -, hbelow⟩ := h
      rw [top, hstate] at hi
      rcases State.mem_next_iff.1 hi with hmem | ⟨hmem, hrhs, hbegins⟩
      · obtain ⟨hproduction, done, hrhs, hdone, hbase⟩ := ih hbelow hmem
        dsimp only at hrhs hbase
        refine ⟨hproduction, done ++ [x], by rw [hrhs, append_cons], ?_, ?_⟩
        · rw [reverse_append]
          exact prefix_cons_inj x |>.2 hdone
        · rw [length_append, length_cons, length_singleton, drop_succ_cons,
            Nat.add_right_cancel_iff]
          exact hbase
      · exact ⟨hmem, [x], hrhs, prefix_cons_inj x |>.2 nil_prefix, .inr hbegins⟩

theorem Sound.take_drop {upper lower : List Symbol}
    (h : Sound P stack (upper ++ lower)) :
    Forall₂ (fun x f => P x f.fragment.trees) upper (stack.take upper.length) ∧
      Sound P (stack.drop upper.length) lower := by
  induction upper generalizing stack with
  | nil => exact ⟨.nil, h⟩
  | cons x upper ih =>
    cases stack with
    | nil => cases h
    | cons f below =>
      obtain ⟨-, hfragment, hbelow⟩ := h
      obtain ⟨htake, hdrop⟩ := ih hbelow
      exact ⟨.cons hfragment htake, hdrop⟩

/-- Only productions of the grammar are found complete, and their parts are on top. Below them their
category can begin, unless they end the source. -/
theorem Sound.rhs_of_reduction?
    (h : Sound P stack symbols) {t : Terminal} {p : Production}
    (hp : (top stack).reduction? .source t = some p) :
    p ∈ productions ∧ p.rhs.reverse <+: symbols ∧
      (p = .start ∧ stack.length = p.rhs.length ∨
        (top (stack.drop p.rhs.length)).Begins p.lhs) := by
  obtain ⟨-, hcomplete | ⟨hmem, hrhs, hbegins⟩⟩ := State.of_reduction? hp
  · obtain ⟨hmem, done, hrhs, hdone, hbase⟩ := h.rhs_of_mem_top hcomplete
    rw [append_nil] at hrhs
    dsimp only at hrhs hbase
    rw [hrhs]
    exact ⟨hmem, hdone, hbase⟩
  · rw [hrhs]
    exact ⟨hmem, nil_prefix, .inr hbegins⟩

theorem Sound.reduce (hP : Closed P)
    (h : Sound P stack symbols) {p : Production} (hp : p ∈ productions)
    (hrhs : p.rhs.reverse <+: symbols) :
    Sound P (reduce .source p stack) (.category p.lhs :: symbols.drop p.rhs.length) := by
  obtain ⟨lower, rfl⟩ := hrhs
  obtain ⟨htake, hdrop⟩ := h.take_drop
  rw [length_reverse] at htake hdrop
  rw [← length_reverse, drop_left]
  refine ⟨rfl, hP.join p hp _ ?_, hdrop⟩
  have hparts := rel_reverse htake
  rw [reverse_reverse] at hparts
  exact forall₂_map_right_iff.2 hparts

theorem Sound.feedWithin (hP : Closed P) {t : Token} (ht : t.Lexed) {n : Nat}
    {stack result : List Frame} (h : Sound P stack symbols)
    (hfeed : feedWithin .source t n stack = some result) : ∃ symbols', Sound P result symbols' := by
  induction n generalizing stack symbols with
  | zero => cases hfeed
  | succ n ih =>
    rw [Parser.feedWithin] at hfeed
    split at hfeed
    · cases hfeed
      exact ⟨.terminal t.kind :: symbols, rfl, hP.token t ht, h⟩
    · obtain ⟨p, hp, hrest⟩ := Option.bind_eq_some_iff.1 hfeed
      obtain ⟨hmem, hrhs, -⟩ := h.rhs_of_reduction? hp
      exact ih (h.reduce hP hmem hrhs) hrest

theorem Sound.of_finishWithin (hP : Closed P) {n : Nat} (h : Sound P stack symbols) {t : Tree}
    (hfinish : finishWithin .source n stack = some t) :
    ∃ trees, P (.category (.rule .fileInput)) trees ∧ trees.head? = some t := by
  induction n generalizing stack symbols with
  | zero => cases hfinish
  | succ n ih =>
    obtain ⟨p, hp, hfinish⟩ := Option.bind_eq_some_iff.1 hfinish
    obtain ⟨hmem, hrhs, -⟩ := h.rhs_of_reduction? hp
    split at hfinish
    · rename_i hlhs
      rw [Production.eq_start hmem hlhs] at hrhs
      obtain ⟨lower, rfl⟩ := hrhs
      cases stack with
      | nil => cases h
      | cons f below => exact ⟨f.fragment.trees, h.2.1, hfinish⟩
    · exact ih (h.reduce hP hmem hrhs) hfinish

theorem Sound.progressFeed (hP : Closed P) {p q : Progress} {ts : List Token}
    (hts : ∀ t ∈ ts, t.Lexed) (h : Sound P p.stack symbols)
    (hfeed : p.feed .source ts = .ok q) : ∃ symbols', Sound P q.stack symbols' := by
  induction ts generalizing p symbols with
  | nil => cases hfeed; exact ⟨symbols, h⟩
  | cons t ts ih =>
    rw [Progress.feed, foldlM_cons] at hfeed
    cases hstack : Parser.feed .source p.stack t with
    | error fault => rw [hstack] at hfeed; cases hfeed
    | ok stack =>
      rw [hstack] at hfeed
      unfold Parser.feed at hstack
      split at hstack
      · rename_i result hresult
        cases hstack
        obtain ⟨symbols', h'⟩ := h.feedWithin hP (hts t (.head _)) hresult
        exact ih (fun t ht => hts t (.tail _ ht))
          (p := { p with stack := stack, fed := some t }) h' hfeed
      · cases hstack

theorem Sound.take (hP : Closed P) {p q : Progress} {t : Token} (ht : t.Lexed)
    (h : Sound P p.stack symbols) (htake : p.take .source t = .ok q) :
    ∃ symbols', Sound P q.stack symbols' := by
  unfold Progress.take at htake
  dsimp only at htake
  cases hfeed : p.feed .source (p.layout.step t).1 with
  | error fault => rw [hfeed] at htake; cases htake
  | ok p' =>
    rw [hfeed] at htake
    simp only [bind, Except.bind] at htake
    split at htake
    · cases htake
      exact h.progressFeed hP (fun _ hs => Layout.lexed_of_mem_step ht hs) (q := p') hfeed
    · cases htake

/-- What is read from a sound stack was read for a program. -/
theorem Sound.of_readWithin (hP : Closed P) {n offset : Nat} {text : List Char} {p : Progress}
    {t : Tree} (h : ∃ symbols, Sound P p.stack symbols)
    (hread : readWithin .source n offset text p = .ok t) :
    ∃ trees, P (.category (.rule .fileInput)) trees ∧ trees.head? = some t := by
  fun_induction readWithin .source n offset text p with
  | case1 n offset p =>
    unfold Progress.finish at hread
    cases hfeed : p.feed .source (p.layout.finish p.seen) with
    | error fault => rw [hfeed] at hread; cases hread
    | ok p' =>
      rw [hfeed] at hread
      simp only [bind, Except.bind] at hread
      split at hread
      · rename_i tree htree
        cases hread
        obtain ⟨symbols, h⟩ := h
        obtain ⟨symbols', h'⟩ := h.progressFeed hP (fun _ hs => Layout.lexed_of_mem_finish hs) hfeed
        exact h'.of_finishWithin hP htree
      · cases hread
  | case2 => cases hread
  | case3 => cases hread
  | case4 n offset c cs p m hscan ih => exact ih h hread
  | case5 n offset c cs p kind m hscan t' ih =>
    cases htake : p.take .source t' with
    | error fault => rw [htake] at hread; cases hread
    | ok p' =>
      rw [htake] at hread
      obtain ⟨symbols, h⟩ := h
      exact ih p' (h.take hP (Lexer.lexed_of_scan hscan _) htake) hread

end Parser

/-- Every tree that was read is, but for its numbers, one for which holds what tokens and
productions say of a program. -/
theorem exists_of_parse_of_closed {P : Symbol → List Tree → Prop} (hP : Parser.Closed P)
    {source : String} {t : Tree} (h : parse source = .ok t) :
    ∃ s trees, P (.category (.rule .fileInput)) trees ∧ trees.head? = some s ∧
      t = (s.numberFrom 0).1 := by
  obtain ⟨s, hread, rfl⟩ := Tree.exists_of_parse h
  obtain ⟨trees, htrees, hhead⟩ :=
    Parser.Sound.of_readWithin hP (p := {}) ⟨[], trivial⟩ hread
  exact ⟨s, trees, htrees, hhead, rfl⟩

/-! ## The root -/

/-- What is read for a program is one node of its rule. -/
def Symbol.Roots (x : Symbol) (trees : List Tree) : Prop :=
  x = .category (.rule .fileInput) → ∃ span children, trees = [.node 0 .fileInput span children]

theorem closed_roots : Parser.Closed Symbol.Roots where
  token _ _ h := nomatch h
  join p hp parts _ hx := by
    have hnode := Production.node_of_program hp (Symbol.category.inj hx)
    simp only [Parser.Fragment.join, hnode]
    exact ⟨_, _, rfl⟩

theorem rule?_of_parse {source : String} {t : Tree} (h : parse source = .ok t) :
    t.rule? = some .fileInput := by
  obtain ⟨s, trees, hprogram, hhead, rfl⟩ := exists_of_parse_of_closed closed_roots h
  obtain ⟨span, children, rfl⟩ := hprogram rfl
  cases hhead
  rw [Tree.rule?_numberFrom]
  rfl

end QueryScribe
