import QueryScribe.Proofs.Placement.Tree
import QueryScribe.Proofs.Reader.Tokens

/-!
# Reading apart from places

What the reader does with a token depends on its kind and its text, not on where it stands. Two
stacks that are the same apart from places take the same moves. So the way through a text is the same
apart from places (`Walks.alike`), and so is the tree at its end (`Closes.alike`), whatever offset the
text has and whatever places stand on the stack.
-/

namespace QueryScribe

open List

/-! ## Numbering -/

namespace Tree

mutual

theorem numberFrom_unplaced (n : Nat) : (t : Tree) →
    t.unplaced.numberFrom n = ((t.numberFrom n).1.unplaced, (t.numberFrom n).2)
  | leaf _ _ => rfl
  | node id rule span children => by
    rw [unplaced, numberFrom, numberFrom, numberFromIn_unplacedIn (n + 1) children]
    rfl

theorem numberFromIn_unplacedIn (n : Nat) : (ts : List Tree) →
    numberFromIn n (unplacedIn ts) = (unplacedIn (numberFromIn n ts).1, (numberFromIn n ts).2)
  | [] => rfl
  | t :: ts => by
    rw [unplacedIn, numberFromIn, numberFrom_unplaced n t]
    dsimp only
    rw [numberFromIn_unplacedIn _ ts]
    rfl

end

end Tree

/-! ## Layout -/

theorem Layout.step_unplaced (l : Layout) (t : Token) :
    l.step t.unplaced = ((l.step t).1.map Token.unplaced, (l.step t).2) := by
  obtain ⟨kind, text, span⟩ := t
  change l.step ⟨kind, text, ⟨0, 0⟩⟩ = _
  simp only [Layout.step]
  split
  · by_cases hbrackets : l.brackets > 0
    · simp only [if_pos hbrackets]
      rfl
    by_cases hlevel : l.level < width (lastLine text.toList)
    · simp only [if_neg hbrackets, if_pos hlevel]
      rfl
    · simp only [if_neg hbrackets, if_neg hlevel, map_cons, map_map]
      rfl
  all_goals rfl

theorem Layout.step_alike (l : Layout) {t t' : Token} (h : t'.unplaced = t.unplaced) :
    (l.step t').1.map Token.unplaced = (l.step t).1.map Token.unplaced ∧
      (l.step t').2 = (l.step t).2 := by
  have hstep := l.step_unplaced t
  rw [← h, l.step_unplaced t'] at hstep
  exact Prod.mk.inj hstep

namespace Parser

/-! ## Stacks -/

/-- A fragment apart from where it stands. -/
def Fragment.unplaced (f : Fragment) : Fragment := ⟨⟨0, 0⟩, f.trees.map Tree.unplaced⟩

/-- An entry of the stack apart from where it stands. -/
def Frame.unplaced (f : Frame) : Frame := ⟨f.state, f.fragment.unplaced⟩

theorem Fragment.ofToken_unplaced (t : Token) : ofToken t.unplaced = (ofToken t).unplaced := by
  obtain ⟨kind, text, span⟩ := t
  change ofToken ⟨kind, text, ⟨0, 0⟩⟩ = _
  simp only [ofToken, Fragment.unplaced]
  cases kind.isDelimiter <;> rfl

theorem Fragment.extent_unplaced (fs : List Fragment) : extent (fs.map unplaced) = ⟨0, 0⟩ := by
  cases fs with
  | nil => rfl
  | cons f fs =>
    rw [map_cons, extent, ← map_cons, getLastD_map]
    rfl

theorem Fragment.join_unplaced (node : Option Rule) (fs : List Fragment) :
    join node (fs.map unplaced) = (join node fs).unplaced := by
  have htrees : (fs.map unplaced).flatMap (·.trees) = (fs.flatMap (·.trees)).map Tree.unplaced := by
    rw [flatMap_map, map_flatMap]
    rfl
  simp only [join, extent_unplaced, htrees]
  cases node with
  | none => rfl
  | some rule => simp only [unplaced, map_cons, map_nil, Tree.unplaced_node]

theorem top_unplaced (stack : List Frame) : top (stack.map Frame.unplaced) = top stack := by
  cases stack <;> rfl

theorem reduce_unplaced (a : Analysis) (p : Production) (stack : List Frame) :
    reduce a p (stack.map Frame.unplaced) = (reduce a p stack).map Frame.unplaced := by
  have hparts : ((stack.map Frame.unplaced).take p.rhs.length).reverse.map (·.fragment) =
      ((stack.take p.rhs.length).reverse.map (·.fragment)).map Fragment.unplaced := by
    rw [← map_take, ← map_reverse, map_map, map_map]
    rfl
  simp only [reduce, hparts, Fragment.join_unplaced, ← map_drop, top_unplaced, map_cons]
  rfl

section Moves

variable {stack stack' : List Frame} (h : stack'.map Frame.unplaced = stack.map Frame.unplaced)

include h

theorem top_alike : top stack' = top stack := by
  rw [← top_unplaced stack', h, top_unplaced]

theorem drop_alike (n : Nat) :
    (stack'.drop n).map Frame.unplaced = (stack.drop n).map Frame.unplaced := by
  rw [map_drop, h, map_drop]

theorem Reduces.alike {t : Terminal} {p : Production} (hp : Reduces t stack p) :
    Reduces t stack' p where
  complete := by rw [top_alike h]; exact hp.complete
  parts := by
    have hlength := congrArg List.length h
    rw [length_map, length_map] at hlength
    exact hlength ▸ hp.parts
  leads := by rw [top_alike (drop_alike h _)]; exact hp.leads

theorem reduce_alike (p : Production) : (reduce .source p stack').map Frame.unplaced =
    (reduce .source p stack).map Frame.unplaced := by
  rw [← reduce_unplaced, h, reduce_unplaced]

end Moves

theorem Feeds.alike {t t' : Token} {stack stack' result : List Frame}
    (h : Feeds t stack (some result)) (ht : t'.unplaced = t.unplaced)
    (hstack : stack'.map Frame.unplaced = stack.map Frame.unplaced) :
    ∃ result', Feeds t' stack' (some result') ∧
      result'.map Frame.unplaced = result.map Frame.unplaced := by
  have hkind : t'.kind = t.kind := by rw [← t'.kind_unplaced, ht, t.kind_unplaced]
  generalize hr : some result = r at h
  induction h generalizing stack' with
  | shift hshifts =>
    cases hr
    refine ⟨_, .shift ?_, ?_⟩
    · rw [top_alike hstack, hkind]
      exact hshifts
    · simp only [map_cons, hstack, Frame.unplaced, ← Fragment.ofToken_unplaced, ht,
        top_alike hstack, hkind]
  | @reduce stack p r hshifts hp _ ih =>
    obtain ⟨result', hfeeds, hresult⟩ := ih (reduce_alike hstack p) hr
    refine ⟨result', .reduce ?_ (hkind ▸ hp.alike hstack) hfeeds, hresult⟩
    rw [top_alike hstack, hkind]
    exact hshifts
  | refuse => cases hr

theorem Finishes.alike {stack stack' : List Frame} {tree : Tree} (h : Finishes stack (some tree))
    (hstack : stack'.map Frame.unplaced = stack.map Frame.unplaced) :
    ∃ tree', Finishes stack' (some tree') ∧ tree'.unplaced = tree.unplaced := by
  generalize hr : some tree = r at h
  induction h generalizing stack' with
  | @accept f tree' hstart htrees =>
    cases hr
    obtain ⟨f', rfl, hf⟩ : ∃ f', stack' = [f'] ∧ f'.unplaced = f.unplaced := by
      rcases stack' with _ | ⟨f', _ | ⟨g, rest⟩⟩
      · cases hstack
      · exact ⟨f', rfl, (List.cons.inj hstack).1⟩
      · cases (List.cons.inj hstack).2
    obtain ⟨hstate, hfragment⟩ := Frame.mk.inj hf
    have htrees' := (Fragment.mk.inj hfragment).2
    rw [htrees] at htrees'
    obtain ⟨tree', htree', heq⟩ := map_eq_singleton_iff.1 htrees'
    exact ⟨tree', .accept (hstate ▸ hstart) htree', heq⟩
  | reduce hlhs hp _ ih =>
    obtain ⟨tree', hfinishes, heq⟩ := ih (reduce_alike hstack _) hr
    exact ⟨tree', .reduce hlhs (hp.alike hstack) hfinishes, heq⟩
  | refuse => cases hr

/-! ## Whole texts -/

/-- Two readers that stand at the same point apart from places. -/
structure Progress.Alike (p p' : Progress) : Prop where
  stack : p'.stack.map Frame.unplaced = p.stack.map Frame.unplaced
  layout : p'.layout = p.layout

variable {p p' q : Progress}

theorem Progress.Alike.trans {p'' : Progress} (h : p.Alike p') (h' : p'.Alike p'') :
    p.Alike p'' :=
  ⟨h'.stack.trans h.stack, h'.layout.trans h.layout⟩

theorem FeedsAll.alike {ts ts' : List Token} (h : FeedsAll p ts (.ok q))
    (hts : ts'.map Token.unplaced = ts.map Token.unplaced)
    (hstack : p'.stack.map Frame.unplaced = p.stack.map Frame.unplaced) :
    ∃ q', FeedsAll p' ts' (.ok q') ∧
      q'.stack.map Frame.unplaced = q.stack.map Frame.unplaced := by
  generalize hr : (Except.ok q : Except SyntaxFault Progress) = r at h
  induction h generalizing p' ts' with
  | nil =>
    cases hr
    rw [map_nil, map_eq_nil_iff] at hts
    exact ⟨p', hts ▸ .nil, hstack⟩
  | cons hfeeds _ ih =>
    obtain ⟨t', rest', rfl, ht, hrest⟩ := map_eq_cons_iff.1 hts
    obtain ⟨result', hfeeds', hresult⟩ := hfeeds.alike ht hstack
    let next : Progress := { p' with stack := result', fed := some t' }
    obtain ⟨q', hall, hq⟩ := @ih next rest' hrest hresult hr
    exact ⟨q', .cons hfeeds' hall, hq⟩
  | refuse => cases hr

theorem Takes.alike {t : Token} (h : Takes p t (.ok q)) (t' : Token) (ht : t'.unplaced = t.unplaced)
    (hp : p.Alike p') :
    ∃ q', Takes p' t' (.ok q') ∧ q.Alike q' := by
  obtain ⟨htokens, hlayout⟩ := p.layout.step_alike ht
  cases h with
  | take hfeeds hok =>
    obtain ⟨q', hfeeds', hstack⟩ := hfeeds.alike htokens hp.stack
    refine ⟨_, .take (hp.layout ▸ hfeeds') ?_, ⟨hstack, rfl⟩⟩
    rw [hp.layout, hlayout]
    exact hok

/-- A text that one reader goes through is gone through by the other, from whatever offset. -/
theorem Walks.alike {offset : Nat} {text : List Char} {ts : List Token} (h : Walks offset text p ts q)
    (hp : p.Alike p') (offset' : Nat) :
    ∃ ts' q', Walks offset' text p' ts' q' ∧ q.Alike q' := by
  induction h generalizing p' offset' with
  | nil => exact ⟨[], p', .nil, hp⟩
  | @skip offset m c cs p q ts hscan hm _ ih =>
    obtain ⟨ts', q', hwalks, hq⟩ := ih hp (offset' + m)
    exact ⟨ts', q', .skip (top_alike hp.stack ▸ hscan) hm hwalks, hq⟩
  | @take offset m c cs p q r kind ts hscan hm htakes _ ih =>
    obtain ⟨q', htakes', hq⟩ := htakes.alike ⟨kind, _, ⟨offset', offset' + m⟩⟩ rfl hp
    obtain ⟨ts', r', hwalks, hr⟩ := ih hq (offset' + m)
    exact ⟨_, r', .take (top_alike hp.stack ▸ hscan) hm htakes' hwalks, hr⟩

theorem Closes.alike {tree : Tree} (h : Closes p tree) (hp : p.Alike p') :
    ∃ tree', Closes p' tree' ∧ tree'.unplaced = tree.unplaced := by
  obtain ⟨q, hfeeds, hfinishes⟩ := h
  have htokens : (p'.layout.finish p'.seen).map Token.unplaced =
      (p.layout.finish p.seen).map Token.unplaced := by
    simp only [Layout.finish, hp.layout, map_map]
    rfl
  obtain ⟨q', hfeeds', hstack⟩ := hfeeds.alike htokens hp.stack
  obtain ⟨tree', hfinishes', heq⟩ := hfinishes.alike hstack
  exact ⟨tree', ⟨q', hfeeds', hfinishes'⟩, heq⟩

end Parser

end QueryScribe
