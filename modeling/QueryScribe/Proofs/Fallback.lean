import QueryScribe.Proofs.Locality.Visit
import QueryScribe.Target

/-!
# Documents that are no queries

In the idiomatic style a document is tried as a query first. An attempt that is given up leaves the
notes as they were (`notes_eq_of_query?_eq_none`), wherever it stopped and whatever it had noted by
then. What it logged nobody reads, so the document is then written as it is in the plain style.
-/

namespace QueryScribe

open Renderer
open Render (exec)

/-- What the only child of a node lists. -/
def Tree.listed (t : Tree) : List Tree :=
  match t.children with
  | [] => []
  | listing :: _ => listing.subtrees

namespace Renderer

variable {r : Renderer} {t : Tree}

theorem elements_eq_listed (h : ∀ e ∈ t.listed, e.isOf .keyValue) :
    r.elements t = pure t.listed := by
  unfold elements
  unfold Tree.listed at h ⊢
  cases hchildren : t.children with
  | nil => rfl
  | cons listing rest =>
    rw [hchildren] at h
    have hno : listing.subtrees.any (·.isOf .compFor) = false := by
      rw [List.any_eq_false]
      intro e he hcomp
      have hkey : e.rule? = some .keyValue := beq_iff_eq.1 (h e he)
      have hcomp : e.rule? = some .compFor := beq_iff_eq.1 hcomp
      rw [hkey] at hcomp
      cases hcomp
    simp [hno]

theorem notes_eq_of_query?_eq_none {entries : List (Tree × Shape)} {j j' : Journal}
    (h : exec (r.query? entries) j = (.ok none, j')) : j'.notes = j.notes := by
  cases hhelpers : r.target.helpers with
  | none =>
    rw [query?, hhelpers] at h
    cases h
    rfl
  | some helpers =>
    by_cases hentries : entries = []
    · subst hentries
      rw [query?, hhelpers] at h
      cases h
      rfl
    · rw [exec_query? hhelpers hentries] at h
      split at h
      · cases h
      · cases h
        rfl
      · cases h

/-- A document whose attempt is given up is written as it is, with the notes from before. -/
theorem exec_objectLiteral_of_query?_eq_none (hentries : ∀ e ∈ t.listed, e.isOf .keyValue)
    {j j' : Journal} (h : exec (r.query? (Shape.ofTree t).entries) j = (.ok none, j')) :
    ∃ k : Journal, k.notes = j.notes ∧
      exec (r.objectLiteral true t) j = exec (r.plainDocument t t.listed) k := by
  rw [objectLiteral, elements_eq_listed hentries, pure_bind]
  split
  · rename_i hlisted
    exact ⟨j, rfl, by rw [hlisted]⟩
  · rename_i first rest hlisted
    have hfirst : first.isOf .keyValue := hentries first (hlisted ▸ (.head _))
    rw [if_neg (by simp [hfirst]), if_pos rfl, Render.exec_bind, h]
    exact ⟨j', notes_eq_of_query?_eq_none h, by rw [hlisted]⟩

theorem objectLiteral_false (hentries : ∀ e ∈ t.listed, e.isOf .keyValue) :
    r.objectLiteral false t = r.plainDocument t t.listed := by
  rw [objectLiteral, elements_eq_listed hentries, pure_bind]
  split
  · rename_i hlisted
    rw [hlisted]
  · rename_i first rest hlisted
    have hfirst : first.isOf .keyValue := hentries first (hlisted ▸ (.head _))
    rw [if_neg (by simp [hfirst]), if_neg (by simp), hlisted]

end Renderer

/-- An abandoned attempt leaves no trace. If a document, which may be empty, is given up as a query,
then the notes and the style are those from before the attempt, and from there the document is written
in the idiomatic style as it is in the plain style: with the same text or the same fault, and leaving
the same uses, types and first types, and the style as it was. -/
theorem render_idiomatic_eq_plain_of_query?_eq_none (target : Target) (source : Source) {t : Tree}
    (hrule : t.rule? = some .objectLiteral) (hentries : ∀ e ∈ t.listed, e.isOf .keyValue)
    {j j' : Journal}
    (h : exec ((below target source t).query? (Shape.ofTree t).entries) j =
      (.ok none, j')) :
    j'.notes = j.notes ∧ j'.idiomatic = j.idiomatic ∧
      (exec (render target source true t) j).2.idiomatic = j.idiomatic ∧
      (exec (render target source true t) j).1 = (exec (render target source false t) j).1 ∧
      (exec (render target source true t) j).2.notes.usage =
        (exec (render target source false t) j).2.notes.usage ∧
      ∀ i : Nat,
        (exec (render target source true t) j).2.notes.types[i]? =
          (exec (render target source false t) j).2.notes.types[i]? ∧
        (exec (render target source true t) j).2.notes.ownTypes[i]? =
          (exec (render target source false t) j).2.notes.ownTypes[i]? := by
  have hstep : ∀ b, render target source b t = (below target source t).objectLiteral b t := by
    intro b
    rw [render_eq_step]
    cases t with
    | leaf => cases hrule
    | node id rule span children => cases hrule; rfl
  obtain ⟨k, hk, hidiomatic⟩ := exec_objectLiteral_of_query?_eq_none hentries h
  have hplain : Render.KeepsTo Set.univ ((below target source t).plainDocument t t.listed) :=
    keepsTo_plainDocument (local_within target source _) (Set.subset_univ _)
      fun _ _ => Set.subset_univ _
  obtain ⟨hresult, husage, hmark⟩ := hplain.eq_of_notes_eq hk
  have hrelated := (local_within target source (t.height - 1)).related true t.region
  have hattempt := (hrelated.query? rfl
    (Shape.both_ofTree hrelated.trees ⟨rfl, subset_rfl⟩).entries).idiomatic_eq j
  have hstyle := (keepsTo_render target source true t).idiomatic_eq j
  rw [← below, h] at hattempt
  rw [hstep true, hidiomatic] at hstyle
  rw [hstep true, hstep false, objectLiteral_false hentries, hidiomatic]
  exact ⟨notes_eq_of_query?_eq_none h, hattempt, hstyle, hresult, husage, fun i =>
    ⟨congrArg Mark.type (hmark i), congrArg Mark.own (hmark i)⟩⟩

/-- The coordinates of a line are written as doubles before it turns out that nearness needs a
point. -/
theorem render_near_line_eq_plain :
    ∃ t ∈ ((parse "\x7b'a': \x7b'$near': \x7b'$geometry': \x7b'type': 'LineString', 'coordinates': [[1, 2]]\x7d\x7d\x7d\x7d"
        ).toOption.map Tree.nodes).getD [],
      t.rule? = some .objectLiteral ∧
        (∃ j', exec ((below .java default t).query? (Shape.ofTree t).entries) {} =
          (.ok none, j')) ∧
        (exec (render .java default true t) {}).1 = (exec (render .java default false t) {}).1 := by
  have h : ∃ t ∈ ((parse
      "\x7b'a': \x7b'$near': \x7b'$geometry': \x7b'type': 'LineString', 'coordinates': [[1, 2]]\x7d\x7d\x7d\x7d"
        ).toOption.map Tree.nodes).getD [],
      t.rule? = some .objectLiteral ∧ (∀ e ∈ t.listed, e.isOf .keyValue) ∧
        (exec ((below .java default t).query? (Shape.ofTree t).entries) {}).1 = .ok none := by
    decide +kernel
  obtain ⟨t, ht, hrule, hentries, hnone⟩ := h
  exact ⟨t, ht, hrule, ⟨_, Prod.ext hnone rfl⟩,
    (render_idiomatic_eq_plain_of_query?_eq_none .java default hrule hentries (Prod.ext hnone rfl)).2.2.2.1⟩

end QueryScribe
