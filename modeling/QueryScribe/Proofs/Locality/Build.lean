import QueryScribe.Proofs.Building.Steps
import QueryScribe.Proofs.Locality.Basic

/-!
# Building keeps to the region of a shape

A renderer is local if what it writes of a node keeps to the region of the node. Whatever is written
plainly over a local renderer keeps to a region that the nodes lie within (`Local.plainly`), and so do
the steps of building, so all that is built of a shape keeps to a region that the shape lies within.
The attempt to write a document as a query keeps to the region of its entries: given up, it takes back
what it noted (`keepsTo_query?`).
-/

namespace QueryScribe

/-- A renderer that keeps to the region of every node it writes. -/
def Renderer.Local (r : Renderer) : Prop :=
  ∀ (b : Bool) (t : Tree), Render.KeepsTo t.region (r.visit b t)

/-- A node within a region, with itself. -/
def Tree.Inside (U : Set Nat) (t t' : Tree) : Prop := t = t' ∧ t.region ⊆ U

theorem Tree.forall₂_inside {U : Set Nat} {ts : List Tree} (hts : ∀ t ∈ ts, t.region ⊆ U) :
    List.Forall₂ (Tree.Inside U) ts ts :=
  List.forall₂_same.2 fun t ht => ⟨rfl, hts t ht⟩

theorem Tree.inside_correspondence (U : Set Nat) : Tree.Correspondence (Tree.Inside U) :=
  .of_children fun _ ht _ hc => (Tree.region_subset_of_mem_children hc).trans ht

namespace Renderer

open Render (KeepsTo)

variable {r : Renderer} {U : Set Nat} {t : Tree}

theorem Local.visit (hr : r.Local) (b : Bool) (ht : t.region ⊆ U) : KeepsTo U (r.visit b t) :=
  (hr b t).mono ht

theorem Local.plainly (hr : r.Local) (U : Set Nat) :
    r.Related r false (Tree.Inside U) fun _ m _ => KeepsTo U m where
  target := rfl
  names := rfl
  trees := Tree.inside_correspondence U
  congruence := (KeepsTo.sequential U).congruence
  throw _ := .throw _
  tryCatch hm hhandle := .tryCatch hm fun e => hhandle (.refl e)
  typeOf h := .typeOf h.2
  ownTypeOf h := .ownTypeOf h.2
  setType h type := .setType h.2 type
  cast h type own := .cast h.2 type own
  touch := .touch
  log event _ := .log event
  visit h := hr.visit false h.2
  plain h := hr.visit false h.2
  query? h := nomatch h

end Renderer

namespace Shape

variable {U : Set Nat} {s : Shape}

/-- All nodes of a shape lie within a region. -/
def Within (U : Set Nat) (s : Shape) : Prop := s.All (·.region ⊆ U)

/-- All nodes of some entries lie within a region. -/
def EntriesWithin (U : Set Nat) (entries : List (Tree × Shape)) : Prop :=
  EntriesAll (·.region ⊆ U) entries

/-- All nodes of some shapes lie within a region. -/
def ItemsWithin (U : Set Nat) (items : List Shape) : Prop := ItemsAll (·.region ⊆ U) items

theorem entriesWithin_iff {entries : List (Tree × Shape)} :
    EntriesWithin U entries ↔ ∀ e ∈ entries, e.1.region ⊆ U ∧ e.2.Within U := entriesAll_iff

theorem itemsWithin_iff {items : List Shape} : ItemsWithin U items ↔ ∀ s ∈ items, s.Within U :=
  itemsAll_iff

theorem Within.mono {V : Set Nat} (hUV : U ⊆ V) (h : s.Within U) : s.Within V :=
  All.imp (fun _ ht => ht.trans hUV) h

theorem Within.tree (h : s.Within U) : s.tree.region ⊆ U := All.tree h

theorem Within.entries (h : s.Within U) : ∀ e ∈ s.entries, e.1.region ⊆ U ∧ e.2.Within U :=
  All.entries h

theorem within_entriesOf {ts : List Tree} (h : ∀ t ∈ ts, t.region ⊆ U) :
    EntriesWithin U (entriesOf ts) :=
  EntriesAll.of_both _ (rel_entriesOf (Tree.inside_correspondence U) ts (Tree.forall₂_inside h))

theorem within_itemsOf {ts : List Tree} (h : ∀ t ∈ ts, t.region ⊆ U) : ItemsWithin U (itemsOf ts) :=
  ItemsAll.of_both _ (rel_itemsOf (Tree.inside_correspondence U) ts (Tree.forall₂_inside h))

end Shape

namespace Builder

open Build (KeepsTo)

variable {b : Builder} {U : Set Nat} {t : Tree} {s : Shape}

theorem keepsTo_call (family : Family) (key : String) (args : List Call) :
    KeepsTo U (b.call family key args) := by
  unfold call
  split
  · exact .bind (.lift (.add _ _)) fun _ => .pure _
  · exact .refuse _

theorem keepsTo_list (items : List Call) : KeepsTo U (list items) :=
  .bind (.lift (.use _)) fun _ => .pure _

theorem keepsTo_plain (hb : b.renderer.Local) (ht : t.region ⊆ U) : KeepsTo U (b.plain t) :=
  .bind (.lift (hb.visit false ht)) fun _ => .pure _

theorem keepsTo_string (hb : b.renderer.Local) (ht : t.region ⊆ U) : KeepsTo U (b.string t) := by
  refine .bind (keepsTo_plain hb ht) fun call => .bind (.lift (.typeOf ht)) fun type => ?_
  split
  · exact .pure _
  · exact .refuse _

theorem keepsTo_numeric (hb : b.renderer.Local) (type : ValueType) (ht : t.region ⊆ U) :
    KeepsTo U (b.numeric type t) := by
  refine .bind (.lift ((hb.plainly U).cast? ⟨rfl, ht⟩ _)) fun text? => ?_
  cases text? with
  | some text => exact .pure _
  | none => exact .bind (.lift (.typeOf ht)) fun _ => .refuse _

theorem keepsTo_number (hb : b.renderer.Local) (ht : t.region ⊆ U) : KeepsTo U (b.number t) := by
  refine .bind ((KeepsTo.sequential U).map _ (keepsTo_plain hb ht)) fun _ => ?_
  refine Render.KeepsTo.tryCatch ((Render.KeepsTo.sequential U).map _
    ((hb.plainly U).numericValue ⟨rfl, ht⟩)) fun fault => ?_
  cases fault with
  | failure f =>
    dsimp only
    split
    · exact .pure _
    · exact .throw _
  | conversion f => exact .throw _
  | unknownType name => exact .throw _
  | malformed label => exact .throw _

theorem keepsTo_steps (hb : b.renderer.Local) (U : Set Nat) :
    b.Steps (·.region ⊆ U) fun (α : Type) (m : Build α) => KeepsTo U m where
  sequential := KeepsTo.sequential U
  refuse := KeepsTo.refuse
  call := keepsTo_call
  list := keepsTo_list
  plain := keepsTo_plain hb
  string := keepsTo_string hb
  numeric _ := keepsTo_numeric hb _
  number := keepsTo_number hb
  shown n := .lift ((hb.plainly U).ofConversion n.write)

end Builder

namespace Renderer

variable {r : Renderer} {U : Set Nat} {entries : List (Tree × Shape)}

/-- The attempt to write a document as a query goes as building does. A refusal is logged, and the
notes are those from before. -/
theorem exec_query? {helpers : Helpers} (hhelpers : r.target.helpers = some helpers)
    (hentries : entries ≠ []) (j : Journal) :
    Render.exec (r.query? entries) j =
      match Render.exec (Builder.query ⟨r, helpers⟩ entries).run j with
      | (.ok (.ok call), j') => (.ok (some (call.write r.target)), j')
      | (.ok (.error reason), j') => (.ok none, ⟨j.notes, .plainDocument reason :: j'.log, j'.idiomatic⟩)
      | (.error fault, j') => (.error fault, j') := by
  have hempty : entries.isEmpty = false := List.isEmpty_eq_false_iff.2 hentries
  unfold query?
  simp only [hhelpers, hempty, Bool.false_eq_true, if_false, Render.exec_bind, Render.exec_notes]
  rcases Render.exec (Builder.query ⟨r, helpers⟩ entries).run j with ⟨fault | (reason | call), j'⟩
  · rfl
  · rfl
  · rfl

/-- The attempt to write a document as a query keeps to the region of its entries. -/
theorem keepsTo_query? (hr : r.Local) {entries' : List (Tree × Shape)}
    (h : List.Forall₂ (Prod.RProd (Tree.Inside U) (Shape.Both (Tree.Inside U))) entries entries') :
    Render.KeepsTo U (r.query? entries) := by
  cases hhelpers : r.target.helpers with
  | none =>
    unfold query?
    rw [hhelpers]
    exact .pure _
  | some helpers =>
    by_cases hentries : entries = []
    · unfold query?
      simp only [hhelpers, hentries]
      exact .pure _
    · have hquery := (Builder.keepsTo_steps (b := ⟨r, helpers⟩) hr U).related.query h
      constructor
      · intro j i hi
        have hframe := hquery.frame j i hi
        rw [exec_query? hhelpers hentries]
        split <;> rename_i hj
        · rw [hj] at hframe
          exact hframe
        · rfl
        · rw [hj] at hframe
          exact hframe
      · intro j i
        have hkept := hquery.kept j i
        rw [exec_query? hhelpers hentries]
        split <;> rename_i hj
        · rw [hj] at hkept
          exact hkept
        · exact .refl _
        · rw [hj] at hkept
          exact hkept
      · intro j
        obtain ⟨records, hrecords⟩ := hquery.congr j
        rw [exec_query? hhelpers hentries]
        -- A refusal records nothing, since its records are taken back.
        split <;> rename_i hj
        · refine ⟨records, fun k hjk => ?_⟩
          obtain ⟨hresult, hagree⟩ := hrecords k hjk
          rw [hj] at hresult hagree
          rw [exec_query? hhelpers hentries, ← Prod.mk.eta (p := Render.exec _ k), hresult]
          exact ⟨rfl, hagree⟩
        · refine ⟨[], fun k hjk => ?_⟩
          obtain ⟨hresult, hagree⟩ := hrecords k hjk
          rw [hj] at hresult
          rw [exec_query? hhelpers hentries, ← Prod.mk.eta (p := Render.exec _ k), hresult]
          exact ⟨rfl, hjk, rfl⟩
        · refine ⟨records, fun k hjk => ?_⟩
          obtain ⟨hresult, hagree⟩ := hrecords k hjk
          rw [hj] at hresult hagree
          rw [exec_query? hhelpers hentries, ← Prod.mk.eta (p := Render.exec _ k), hresult]
          exact ⟨rfl, hagree⟩
      · intro j b
        rw [exec_query? hhelpers hentries, exec_query? hhelpers hentries, hquery.style]
        rcases Render.exec _ j with ⟨fault | (reason | call), j'⟩ <;> rfl

end Renderer

end QueryScribe
