import QueryScribe.Proofs.Placement.Reading
import QueryScribe.Proofs.Reader.Conflicts

/-!
# What is derived is read

The productions say which tokens a category may consist of and which tree these tokens make. That is
said here without the reader: `Derives` builds the tokens and the trees of some symbols from the
productions alone. Where no state leaves a choice the reader finds every derivation. It takes the tokens
of a derivation one after the other (`Eats`), and before any terminal that can follow then it completes
the productions that make up the trees (`Settles`, `Derives.eatsBoth`). So the tokens of a program are
read to its tree (`Derives.finishes`). How it does that depends on the stack below only through the
state on top: on two stacks whose states go on alike it goes through the same states (`EatsBoth`).
-/

namespace QueryScribe

open List

open Production

/-! ## Derivations -/

/-- The trees of a complete production: one node around its parts, or just the parts. -/
def Production.enclose (p : Production) (trees : List Tree) : List Tree :=
  match p.node with
  | none => trees
  | some rule => [.node 0 rule ⟨0, 0⟩ trees]

/-- The tokens that symbols in a row may consist of, and the trees, apart from places, that the tokens
make. No category but the whole program consists of nothing. -/
inductive Derives : List Symbol → List Token → List Tree → Prop
  | nil : Derives [] [] []
  | terminal {xs : List Symbol} {ts : List Token} {trees : List Tree} (t : Token) :
    Derives xs ts trees →
    Derives (.terminal t.kind :: xs) (t :: ts) ((Parser.Fragment.ofToken t).unplaced.trees ++ trees)
  | category {xs : List Symbol} {ts ts' : List Token} {trees trees' : List Tree} {p : Production} :
    p ∈ productions → p.lhs ≠ .source → p.rhs ≠ [] → Derives p.rhs ts trees → Derives xs ts' trees' →
    Derives (.category p.lhs :: xs) (ts ++ ts') (p.enclose trees ++ trees')

/-- The terminals with which a symbol can start. -/
def Symbol.starters : Symbol → List Terminal
  | .terminal t => [t]
  | .category c => c.starters

namespace Derives

variable {xs ys : List Symbol} {ts ts' : List Token} {trees trees' : List Tree}

theorem append (h : Derives xs ts trees) (h' : Derives ys ts' trees') :
    Derives (xs ++ ys) (ts ++ ts') (trees ++ trees') := by
  induction h with
  | nil => exact h'
  | terminal t _ ih =>
    rw [append_assoc]
    exact .terminal t ih
  | category hp hlhs hrhs h _ _ ih =>
    rw [append_assoc, append_assoc]
    exact .category hp hlhs hrhs h ih

theorem of_production {p : Production} (hp : p ∈ productions) (hlhs : p.lhs ≠ .source)
    (hrhs : p.rhs ≠ []) (h : Derives p.rhs ts trees) :
    Derives [.category p.lhs] ts (p.enclose trees) := by
  have h := Derives.category hp hlhs hrhs h .nil
  rwa [append_nil, append_nil] at h

theorem alike (h : Derives xs ts trees) (hts : ts'.map Token.unplaced = ts.map Token.unplaced) :
    Derives xs ts' trees := by
  induction h generalizing ts' with
  | nil =>
    rw [map_eq_nil_iff.1 hts]
    exact .nil
  | @terminal xs ts trees t _ ih =>
    obtain ⟨t', rest, rfl, ht, hrest⟩ := map_eq_cons_iff.1 hts
    have hkind : t.kind = t'.kind := by rw [← t.kind_unplaced, ← ht, t'.kind_unplaced]
    rw [← Parser.Fragment.ofToken_unplaced, ← ht, Parser.Fragment.ofToken_unplaced, hkind]
    exact .terminal t' (ih hrest)
  | category hp hlhs hrhs _ _ ih ih' =>
    rw [map_append] at hts
    obtain ⟨front, rest, rfl, hfront, hrest⟩ := map_eq_append_iff.1 hts
    exact .category hp hlhs hrhs (ih hfront) (ih' hrest)

end Derives

/-! ## What the tables say of productions -/

theorem Analysis.testBit_of_isSubset {s t i : Nat} (h : isSubset s t)
    (hi : s.testBit i) : t.testBit i := by
  rw [← beq_iff_eq.1 h, Nat.testBit_or, hi, Bool.true_or]

variable {x : Symbol}

theorem Analysis.testBit_startersOf {t : Terminal} (h : t ∈ x.starters) :
    (source.startersOf x).testBit t.ctorIdx := by
  cases x with
  | terminal u =>
    rw [mem_singleton.1 h]
    simp [startersOf, Nat.one_shiftLeft]
  | category c => exact starts_iff.2 h

namespace Production

variable {p : Production} (hp : p ∈ productions)

include hp

theorem allowed : Analysis.source.allows p := by
  have hclosed := Analysis.source_isClosed
  rw [Analysis.isClosed, Bool.and_eq_true] at hclosed
  exact all_eq_true.1 hclosed.2 p hp

theorem mem_starters {x : Symbol} {rest : List Symbol} (hrhs : p.rhs = x :: rest) {t : Terminal}
    (ht : t ∈ x.starters) : t ∈ p.lhs.starters := by
  have hallows := allowed hp
  rw [Analysis.allows, hrhs] at hallows
  simp only [Analysis.startersInclude, Bool.and_eq_true] at hallows
  exact Analysis.starts_iff.1
    (Analysis.testBit_of_isSubset hallows.1.2.1 (Analysis.testBit_startersOf ht))

/-- What follows a category in a production: what starts the next symbol, or what can follow the
production if there is none. -/
theorem mem_followers {done rest : List Symbol} {c : Category}
    (hrhs : p.rhs = done ++ .category c :: rest) {t : Terminal}
    (ht : t ∈ (rest.head?.map Symbol.starters).getD p.lhs.followers) : t ∈ c.followers := by
  have hallows := allowed hp
  rw [Analysis.allows, hrhs] at hallows
  have hincludes := (Bool.and_eq_true_iff.1 hallows).2
  clear hallows hrhs
  induction done with
  | nil =>
    cases rest with
    | nil =>
      rw [nil_append, Analysis.followersInclude] at hincludes
      exact Analysis.follows_iff.1
        (Analysis.testBit_of_isSubset hincludes (Analysis.follows_iff.2 ht))
    | cons x rest =>
      rw [nil_append, Analysis.followersInclude, Bool.and_eq_true] at hincludes
      exact Analysis.follows_iff.1
        (Analysis.testBit_of_isSubset hincludes.1 (Analysis.testBit_startersOf ht))
  | cons y done ih =>
    refine ih ?_
    cases y with
    | terminal => exact hincludes
    | category d =>
      obtain ⟨x, rest', heq⟩ := exists_cons_of_ne_nil
        (append_ne_nil_of_right_ne_nil done (cons_ne_nil (.category c) rest))
      rw [cons_append, heq, Analysis.followersInclude, Bool.and_eq_true] at hincludes
      rw [heq]
      exact hincludes.2

end Production

theorem Derives.head {xs : List Symbol} {ts : List Token} {trees : List Tree}
    (h : Derives xs ts trees) : (ts = [] ∧ xs = []) ∨
      ∃ t ts' x xs', ts = t :: ts' ∧ xs = x :: xs' ∧ t.kind ∈ x.starters := by
  induction h with
  | nil => exact .inl ⟨rfl, rfl⟩
  | terminal t => exact .inr ⟨t, _, _, _, rfl, rfl, mem_singleton_self _⟩
  | category hp hlhs hne _ _ ih =>
    rcases ih with ⟨-, hnil⟩ | ⟨t, ts', x, xs', rfl, hrhs, ht⟩
    · exact absurd hnil hne
    · exact .inr ⟨t, _, _, _, rfl, rfl, mem_starters hp hrhs ht⟩

/-! ## What a state goes on with -/

namespace State

variable {s : State} {p : Production}

/-- A production is under way, or may begin, with these symbols still to come. -/
def Holds (s : State) (i : Item) : Prop :=
  i ∈ s ∨ (i.production ∈ productions ∧ i.production.rhs = i.rest ∧ s.Begins i.production.lhs)

variable {rest : List Symbol}

theorem Holds.mem_next {x : Symbol} (h : s.Holds ⟨p, x :: rest⟩) :
    ⟨p, rest⟩ ∈ s.next .source x :=
  mem_next_iff.2 h

theorem Holds.begins {c : Category} (h : s.Holds ⟨p, .category c :: rest⟩) :
    s.Begins c := by
  rcases h with h | ⟨hp, hrhs, i, hi, d, rest', hrest, hcorner⟩
  · exact ⟨_, h, c, rest, rfl, c.self_mem_corners⟩
  · exact ⟨i, hi, d, rest', hrest,
      Category.mem_corners_of_rhs hcorner (mem_of_mem_productions hp) hrhs⟩

theorem Holds.shifts {t : Terminal} (h : s.Holds ⟨p, .terminal t :: rest⟩) :
    s.shifts .source t := by
  rw [shifts_iff]
  rcases h with h | ⟨hp, hrhs, i, hi, d, rest', hrest, hcorner⟩
  · exact ⟨_, h, .inl ⟨rest, rfl⟩⟩
  · refine ⟨i, hi, .inr ⟨d, rest', hrest, mem_flatMap.2 ⟨_, hcorner, ?_⟩⟩⟩
    refine mem_filterMap.2 ⟨p, mem_of_mem_productions hp, ?_⟩
    simp only at hrhs
    rw [hrhs]

end State

/-- The symbols that can come first in a category. -/
def Category.Leads (c : Category) (x : Symbol) : Prop :=
  ∃ d ∈ c.corners, ∃ p ∈ d.productions, x ∈ p.rhs.head?

theorem Category.Leads.of_production {c : Category} {p : Production} (h : c.Leads (.category p.lhs))
    (hp : p ∈ QueryScribe.productions) (hx : x ∈ p.rhs.head?) : c.Leads x := by
  obtain ⟨d, hd, q, hq, hhead⟩ := h
  obtain ⟨rest, hrhs⟩ := head?_eq_some_iff.1 hhead
  exact ⟨p.lhs, mem_corners_of_rhs hd hq hrhs, p, mem_of_mem_productions hp, hx⟩

/-- Two states are the same, or a symbol can come first in the category `c` and they go on alike with
all such symbols. -/
def State.Follow (c : Category) (s s' : State) (x : Symbol) : Prop :=
  s = s' ∨ (c.Leads x ∧ ∀ y, c.Leads y → s.next .source y = s'.next .source y)

theorem State.Follow.next_eq {c : Category} {s s' : State} (h : Follow c s s' x) :
    s.next .source x = s'.next .source x := by
  rcases h with rfl | ⟨hx, hnext⟩
  · rfl
  · exact hnext x hx

namespace Parser

/-! ## The reader on a derivation -/

/-- Tokens are put on a stack one after the other. -/
inductive Eats : List Frame → List Token → List Frame → Prop
  | nil {stack : List Frame} : Eats stack [] stack
  | cons {stack mid last : List Frame} {t : Token} {ts : List Token} : Feeds t stack (some mid) →
    Eats mid ts last → Eats stack (t :: ts) last

/-- Complete productions take their parts before a terminal. -/
inductive Settles (k : Terminal) : List Frame → List Frame → Prop
  | refl {stack : List Frame} : Settles k stack stack
  | reduce {stack last : List Frame} {p : Production} : (top stack).shifts .source k = false →
    p.lhs ≠ .source → Reduces k stack p → Settles k (Parser.reduce .source p stack) last →
    Settles k stack last

/-- Tokens are put on two stacks one after the other, and the states on top are the same then. -/
inductive EatsBoth : List Frame → List Frame → List Token → List Frame → List Frame → Prop
  | nil {stack stack' : List Frame} : EatsBoth stack stack' [] stack stack'
  | cons {stack stack' mid mid' last last' : List Frame} {t : Token} {ts : List Token} :
    Feeds t stack (some mid) → Feeds t stack' (some mid') → top mid = top mid' →
    EatsBoth mid mid' ts last last' → EatsBoth stack stack' (t :: ts) last last'

namespace EatsBoth

variable {stack stack' mid mid' last last' : List Frame} {ts ts' : List Token}

theorem append (h : EatsBoth stack stack' ts mid mid') (h' : EatsBoth mid mid' ts' last last') :
    EatsBoth stack stack' (ts ++ ts') last last' := by
  induction h with
  | nil => exact h'
  | cons hfeeds hfeeds' htop _ ih => exact .cons hfeeds hfeeds' htop (ih h')

theorem eats (h : EatsBoth stack stack' ts mid mid') : Eats stack ts mid ∧ Eats stack' ts mid' := by
  induction h with
  | nil => exact ⟨.nil, .nil⟩
  | cons hfeeds hfeeds' _ _ ih => exact ⟨.cons hfeeds ih.1, .cons hfeeds' ih.2⟩

end EatsBoth

namespace Settles

variable {k : Terminal} {stack mid last : List Frame}

theorem trans (h : Settles k stack mid) (h' : Settles k mid last) : Settles k stack last := by
  induction h with
  | refl => exact h'
  | reduce hshifts hlhs hp _ ih => exact .reduce hshifts hlhs hp (ih h')

theorem feeds {t : Token} {result : Option (List Frame)} (h : Settles t.kind stack mid)
    (hfeeds : Feeds t mid result) : Feeds t stack result := by
  induction h with
  | refl => exact hfeeds
  | reduce hshifts _ hp _ ih => exact .reduce hshifts hp (ih hfeeds)

theorem finishes {tree : Tree} (h : Settles .endOfInput stack mid)
    (hfinishes : Finishes mid (some tree)) : Finishes stack (some tree) := by
  induction h with
  | refl => exact hfinishes
  | reduce _ hlhs hp _ ih => exact .reduce hlhs hp (ih hfinishes)

end Settles

/-- The trees of the entries of a stack, the oldest first, apart from their places. -/
def treesOf (frames : List Frame) : List Tree :=
  frames.reverse.flatMap (·.fragment.unplaced.trees)

theorem treesOf_append (frames below : List Frame) :
    treesOf (frames ++ below) = treesOf below ++ treesOf frames := by
  simp [treesOf]

theorem trees_join (p : Production) (frames : List Frame) :
    (Fragment.join p.node (frames.reverse.map (·.fragment))).unplaced.trees =
      p.enclose (treesOf frames) := by
  rw [← Fragment.join_unplaced]
  simp only [Fragment.join, Fragment.extent_unplaced, flatMap_map]
  rfl

variable {stack : List Frame}

theorem reduce_append {p : Production} {frames : List Frame} (h : frames.length = p.rhs.length) :
    reduce .source p (frames ++ stack) =
      ⟨(top stack).next .source (.category p.lhs),
        .join p.node (frames.reverse.map (·.fragment))⟩ :: stack := by
  rw [reduce, ← h, take_left, drop_left]

/-- The reader can go on with some symbols of a production. -/
structure Expects (q : Production) (xs : List Symbol) (stack : List Frame) : Prop where
  reached : (top stack).Reached
  holds : (top stack).Holds ⟨q, xs⟩

/-- With these entries on top of a stack a production is complete, and before any terminal that can
follow it the reader comes to them. -/
structure Completes (q : Production) (stack mid frames : List Frame) : Prop where
  reached : (top (frames ++ stack)).Reached
  mem : ⟨q, []⟩ ∈ top (frames ++ stack)
  settles : ∀ k ∈ q.lhs.followers, Settles k mid (frames ++ stack)

theorem Expects.next {q : Production} {x : Symbol} {xs : List Symbol} (h : Expects q (x :: xs) stack)
    {f : Frame} (hf : f.state = (top stack).next .source x) (below : List Frame) :
    Expects q xs (f :: below) := by
  constructor
  · change f.state.Reached
    rw [hf]
    exact h.reached.next x
  · refine .inl (?_ : _ ∈ f.state)
    rw [hf]
    exact h.holds.mem_next

theorem Completes.push {q : Production} {mid frames : List Frame} {f : Frame}
    (h : Completes q (f :: stack) mid frames) : Completes q stack mid (frames ++ [f]) := by
  have happend : (frames ++ [f]) ++ stack = frames ++ f :: stack := by simp
  constructor
  · rw [happend]
    exact h.reached
  · rw [happend]
    exact h.mem
  · rw [happend]
    exact h.settles

/-- The entry of a category once a production has taken its parts. -/
def reduced (p : Production) (stack parts : List Frame) : Frame :=
  ⟨(top stack).next .source (.category p.lhs), .join p.node (parts.reverse.map (·.fragment))⟩

theorem treesOf_reduced (p : Production) (stack parts : List Frame) :
    treesOf [reduced p stack parts] = p.enclose (treesOf parts) := by
  rw [← trees_join]
  simp [treesOf, reduced]

theorem Completes.reduces {p : Production} {mid parts : List Frame} {k : Terminal}
    (h : Completes p stack mid parts) (hlhs : p.lhs ≠ .source) (hlength : parts.length = p.rhs.length)
    (hbegins : (top stack).Begins p.lhs) (hk : k ∈ p.lhs.followers) :
    Settles k mid (reduced p stack parts :: stack) := by
  obtain ⟨hshifts, hreduction⟩ := h.reached.reduces h.mem hk
  refine (h.settles k hk).trans (.reduce hshifts hlhs ⟨hreduction, ?_, ?_⟩ ?_)
  · rw [length_append]
    omega
  · rw [← hlength, drop_left]
    exact hbegins.next_ne_nil
  · rw [reduce_append hlength]
    exact .refl

end Parser

namespace Derives

open QueryScribe.Parser

variable {xs : List Symbol} {ts : List Token} {trees : List Tree}

/-- Where the reader can go on with the symbols of a derivation, it takes the tokens, and before any
terminal that can follow it completes what the derivation consists of: the entries on top of the stack
are those of the symbols and hold the trees. It does so alike on two stacks that go on alike. -/
theorem eatsBoth (h : Derives xs ts trees) {c : Category} {q : Production} (hq : q ∈ productions)
    (hne : q.rhs ≠ []) {done : List Symbol} (hrhs : q.rhs = done ++ xs) {stack stack' : List Frame}
    (hstack : Expects q xs stack) (hstack' : Expects q xs stack')
    (hfollow : ∀ x ∈ xs.head?, State.Follow c (top stack) (top stack') x) :
    ∃ mid mid' frames, EatsBoth stack stack' ts mid mid' ∧ frames.length = xs.length ∧
      treesOf frames = trees ∧ Completes q stack mid frames ∧ Completes q stack' mid' frames := by
  induction h generalizing q done stack stack' with
  | nil =>
    have hdone {stack : List Frame} (h : Expects q [] stack) : Completes q stack stack [] := by
      refine ⟨h.reached, ?_, fun _ _ => .refl⟩
      rcases h.holds with hmem | ⟨-, hnil, -⟩
      · exact hmem
      · exact absurd hnil hne
    exact ⟨stack, stack', [], .nil, rfl, rfl, hdone hstack, hdone hstack'⟩
  | @terminal xs ts trees t _ ih =>
    have hnext := (hfollow _ rfl).next_eq
    let frame : Frame := ⟨(top stack).next .source (.terminal t.kind), .ofToken t⟩
    obtain ⟨mid, mid', frames, heats, hlength, htrees, hmid, hmid'⟩ :=
      ih hq hne (hrhs.trans (append_cons _ _ _)) (hstack.next (f := frame) rfl stack)
        (hstack'.next (f := frame) hnext stack') fun _ _ => .inl rfl
    have hshift : Feeds t stack' (some (frame :: stack')) := by
      have h := Feeds.shift (t := t) hstack'.holds.shifts
      rwa [← hnext] at h
    refine ⟨mid, mid', frames ++ [frame], .cons (.shift hstack.holds.shifts) hshift rfl heats,
      by simp [hlength], ?_, hmid.push, hmid'.push⟩
    rw [treesOf_append, htrees]
    simp [treesOf, frame]
  | @category xs ts ts' trees trees' p hp hlhs hprhs hpart hrest ihpart ihrest =>
    -- The parts of the category are read first.
    have hfirst := hfollow _ rfl
    have hbegins := hstack.holds.begins
    have hbegins' := hstack'.holds.begins
    obtain ⟨mid, mid', parts, heats, hlength, htrees, hmid, hmid'⟩ :=
      ihpart hp hprhs (nil_append _).symm ⟨hstack.reached, .inr ⟨hp, rfl, hbegins⟩⟩
        ⟨hstack'.reached, .inr ⟨hp, rfl, hbegins'⟩⟩ fun x hx =>
          hfirst.imp_right fun ⟨hleads, hnext⟩ => ⟨hleads.of_production hp hx, hnext⟩
    -- Before a terminal that can follow they are taken by the production.
    have hframe : reduced p stack' parts = reduced p stack parts := by
      rw [reduced, ← hfirst.next_eq]
      rfl
    have hreduce (k : Terminal) (hk : k ∈ p.lhs.followers) :
        Settles k mid (reduced p stack parts :: stack) ∧
          Settles k mid' (reduced p stack parts :: stack') :=
      ⟨hmid.reduces hlhs hlength hbegins hk, hframe ▸ hmid'.reduces hlhs hlength hbegins' hk⟩
    -- Then the other symbols are read.
    obtain ⟨last, last', frames, heats', hlength', htrees', hlast, hlast'⟩ :=
      ihrest hq hne (hrhs.trans (append_cons _ _ _))
        (hstack.next (f := reduced p stack parts) rfl stack)
        (hstack.next (f := reduced p stack parts) rfl stack') fun _ _ => .inl rfl
    have hall : treesOf (frames ++ [reduced p stack parts]) = p.enclose trees ++ trees' := by
      rw [treesOf_append, htrees', ← htrees, treesOf_reduced]
    have hfollowers : ∀ k ∈ (xs.head?.map Symbol.starters).getD q.lhs.followers,
        k ∈ p.lhs.followers := fun k hk => mem_followers hq hrhs hk
    rcases hrest.head with ⟨rfl, rfl⟩ | ⟨t, rest, x, xs', rfl, rfl, ht⟩
    · -- There are none, so the category waits for what follows the whole.
      cases heats'
      refine ⟨mid, mid', _, by simpa using heats, by simp [hlength'], hall, ?_, ?_⟩
      · exact { hlast.push with settles := fun k hk =>
          (hreduce k (hfollowers k hk)).1.trans (hlast.push.settles k hk) }
      · exact { hlast'.push with settles := fun k hk =>
          (hreduce k (hfollowers k hk)).2.trans (hlast'.push.settles k hk) }
    · -- The next token completes the category.
      cases heats' with
      | cons hfeeds hfeeds' htop heats' =>
        obtain ⟨hsettles, hsettles'⟩ := hreduce t.kind (hfollowers _ ht)
        exact ⟨last, last', _,
          heats.append (.cons (hsettles.feeds hfeeds) (hsettles'.feeds hfeeds') htop heats'),
          by simpa using hlength', hall, hlast.push, hlast'.push⟩

theorem eq_singleton (h : Derives [.category (.rule .fileInput)] ts trees) :
    ∃ tree, trees = [tree] := by
  generalize hxs : [Symbol.category (.rule .fileInput)] = xs at h
  cases h with
  | nil => cases hxs
  | terminal => cases hxs
  | category hp hlhs hne h hrest =>
    obtain ⟨hcategory, rfl⟩ := List.cons.inj hxs
    cases hrest
    have hnode := node_of_program hp (Symbol.category.inj hcategory).symm
    exact ⟨_, by rw [append_nil, enclose, hnode]⟩

theorem finishes (h : Derives [.category (.rule .fileInput)] ts trees) :
    ∃ mid tree, Eats [] ts mid ∧ Finishes mid (some tree) ∧ trees = [tree.unplaced] := by
  have hstart : start ∈ productions :=
    mem_flatMap.2 ⟨.source, .head _, .head _⟩
  have hexpects : Expects .start [.category (.rule .fileInput)] [] :=
    ⟨.initial, .inl (mem_singleton_self _)⟩
  obtain ⟨mid, _, frames, heats, hlength, htrees, hmid, -⟩ :=
    h.eatsBoth (c := .source) hstart (cons_ne_nil _ _) (nil_append _).symm hexpects hexpects
      fun _ _ => .inl rfl
  obtain ⟨f, rfl⟩ := length_eq_one_iff.1 hlength
  have hend : .endOfInput ∈ start.lhs.followers := mem_singleton_self _
  obtain ⟨-, hreduction⟩ := hmid.reached.reduces hmid.mem hend
  have hframe : f.fragment.trees.map Tree.unplaced = trees := by
    rw [← htrees]
    simp [treesOf, Fragment.unplaced]
  obtain ⟨root, rfl⟩ := h.eq_singleton
  obtain ⟨tree, htree, rfl⟩ := map_eq_singleton_iff.1 hframe
  exact ⟨mid, tree, heats.eats.1, (hmid.settles _ hend).finishes (.accept hreduction htree), rfl⟩

end Derives

end QueryScribe
