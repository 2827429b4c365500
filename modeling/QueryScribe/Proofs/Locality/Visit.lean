import QueryScribe.Proofs.Locality.Build

/-!
# Every node keeps to its region

All that is written over a local renderer keeps to a region that the nodes lie within
(`Local.related`), so a step keeps to the region of its node (`keepsTo_step`), and by induction on the
number of levels all renderers are local (`local_within`). A tree is written alike below whatever it stands (`visit_within`), so what holds of
`render` holds of every node that is written on the way.
-/

namespace QueryScribe

namespace Renderer

open Render (KeepsTo)

variable {r : Renderer} {U : Set Nat} {t : Tree}

theorem Local.related (hr : r.Local) (b : Bool) (U : Set Nat) :
    r.Related r b (Tree.Inside U) fun _ m _ => KeepsTo U m :=
  { hr.plainly U with
    visit := fun h => hr.visit b h.2
    query? := fun _ {_ _} h => keepsTo_query? hr h }

theorem keepsTo_plainDocument (hr : r.Local) (ht : t.region ⊆ U) {entries : List Tree}
    (hentries : ∀ e ∈ entries, e.region ⊆ U) : KeepsTo U (r.plainDocument t entries) :=
  (hr.related false U).plainDocument ⟨rfl, ht⟩ (Tree.forall₂_inside hentries)

theorem mem_of_mem_everySecond {α : Type} {a : α} {l : List α} (h : a ∈ everySecond l) : a ∈ l := by
  fun_induction everySecond l with
  | case1 => cases h
  | case2 => exact h
  | case3 b c rest ih =>
    rcases List.mem_cons.1 h with rfl | h
    · exact .head _
    · exact .tail _ (.tail _ (ih h))

theorem keepsTo_step (hr : r.Local) (b : Bool) (t : Tree) : KeepsTo t.region (r.step b t) :=
  (hr.related b t.region).step ⟨rfl, subset_rfl⟩

theorem local_within (target : Target) (source : Source) (n : Nat) :
    (within target source n).Local := by
  induction n with
  | zero => exact fun _ _ => .malformed _
  | succ n ih =>
    intro b t
    unfold within
    dsimp only
    split
    · exact ih b t
    · rw [(keepsTo_step ih b t).inStyle_eq]
      exact keepsTo_step ih b t

/-! ## Trees below others -/

variable {target : Target} {source : Source}

/-- Each step is made in the style of its visit. -/
theorem visit_within_succ (n : Nat) (b : Bool) (t : Tree) :
    (within target source (n + 1)).visit b t =
      if t.height ≤ n then (within target source n).visit b t
      else (within target source n).step b t :=
  if_congr .rfl rfl (keepsTo_step (local_within target source n) b t).inStyle_eq

@[simp]
theorem target_within (n : Nat) : (within target source n).target = target := by
  cases n <;> rfl

theorem visit_within (b : Bool) {n : Nat} (h : t.height ≤ n) :
    (within target source n).visit b t = render target source b t := by
  induction n with
  | zero =>
    obtain h : t.height = 0 := Nat.le_zero.1 h
    rw [render, forTree, h]
  | succ n ih =>
    by_cases hn : t.height ≤ n
    · exact (if_pos hn).trans (ih hn)
    · have heq : t.height = n + 1 := by omega
      rw [render, forTree, heq]

/-- The renderer for the nodes below a node. -/
def below (target : Target) (source : Source) (t : Tree) : Renderer :=
  within target source (t.height - 1)

theorem render_eq_step (b : Bool) (t : Tree) :
    render target source b t = (below target source t).step b t := by
  have hpos : t.height = t.height - 1 + 1 := by
    cases t with
    | leaf => rfl
    | node => rfl
  have hlt : ¬ t.height ≤ t.height - 1 := by omega
  rw [render, forTree, hpos]
  exact (visit_within_succ _ b t).trans (if_neg hlt)

theorem visit_below (b : Bool) {c : Tree} (h : c ∈ t.children) :
    (below target source t).visit b c = render target source b c :=
  visit_within b (Nat.le_sub_one_of_lt (Tree.height_lt_of_mem_children h))

end Renderer

theorem keepsTo_render (target : Target) (source : Source) (b : Bool) (t : Tree) :
    Render.KeepsTo t.region (render target source b t) :=
  Renderer.local_within target source t.height b t

end QueryScribe
