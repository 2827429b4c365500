import QueryScribe.Proofs.Locality.Visit
import QueryScribe.Proofs.Reading
import QueryScribe.Target

/-!
# What a traversal leaves alone

A traversal is entered by writing a node, by writing it as another type, by checking it as an
argument or by trying a document as a query. `Entry` lists these ways with the nodes that each is
given. Whichever way it is entered, and whether it ends in a result or in a fault, the traversal
notes nothing outside of the nodes it was given and takes back nothing that was noted or recorded
before (`Entry.extends_exec`). The style is an argument of the entries and no part of the notes, so
there is nothing of it that a traversal could change.

Both halves come from the locality of the actions: `KeepsTo` gives the frame and the marks that are
kept, and what is recorded is a run of records, each of which only adds.
-/

namespace QueryScribe

open List

open Render (exec)

/-- Notes that hold all that others held: under the numbers outside of a region the same, under the
others no less; every code that was used, and under each code first the names that were there. -/
structure Notes.Extends (U : Set Nat) (n m : Notes) : Prop where
  frame : ∀ i ∉ U, m.mark i = n.mark i
  kept : ∀ i, (n.mark i).Kept (m.mark i)
  used : ∀ code, (n.usage.get? code).isSome → (m.usage.get? code).isSome
  names : ∀ code, n.usage.names code <+: m.usage.names code

/-- An action that keeps to a region leaves notes that hold all that was there before. -/
theorem Render.KeepsTo.extends_exec {α : Type} {U : Set Nat} {m : Render α} (hm : KeepsTo U m)
    (j : Journal) : j.notes.Extends U (exec m j).2.notes := by
  obtain ⟨records, hrecords⟩ := hm.congr j
  have husage : (exec m j).2.notes.usage = j.notes.usage.writeAll records :=
    (hrecords j (Notes.AgreeOn.refl U j.notes)).2.2
  refine ⟨hm.frame j, hm.kept j, fun code hcode => ?_, fun code => ?_⟩
  · rw [husage]
    exact Usage.isSome_get?_writeAll_of_isSome hcode records
  · rw [husage, Usage.names_writeAll_append]
    exact prefix_append _ _

/-- The ways into a traversal. -/
inductive Entry
  /-- Writing a node, in the idiomatic style or not. -/
  | visit (idiomatic : Bool) (t : Tree)
  /-- Writing a node plainly. -/
  | plain (t : Tree)
  /-- Writing a numeric node as a type. -/
  | castTo (idiomatic : Bool) (expected : ValueType) (t : Tree)
  /-- Writing an argument for a slot. -/
  | cast? (idiomatic : Bool) (slot : Slot) (t : Tree)
  /-- Checking and writing the arguments of a call. -/
  | arguments (idiomatic : Bool) (callee : String) (slots : List Slot) (ts : List Tree)
  /-- Trying a document as a query, given its keys and values. -/
  | query (pairs : List (Tree × Tree))

namespace Entry

/-- The nodes that a traversal is given. -/
def given : Entry → List Tree
  | visit _ t | plain t | castTo _ _ t | cast? _ _ t => [t]
  | arguments _ _ _ ts => ts
  | query pairs => pairs.flatMap fun (key, value) => [key, value]

/-- The traversal from an entry. -/
def run (r : Renderer) : Entry → Render Unit
  | visit idiomatic t => discard (r.visit idiomatic t)
  | plain t => discard (r.plain t)
  | castTo idiomatic expected t => discard (r.castTo idiomatic expected t)
  | cast? idiomatic slot t => discard (r.cast? idiomatic slot t)
  | arguments idiomatic callee slots ts => discard (r.arguments idiomatic callee slots ts)
  | query pairs => discard (r.query? (pairs.map fun (key, value) => (key, Shape.ofTree value)))

/-- The numbers of the nodes that a traversal is given. -/
def region (e : Entry) : Set Nat := {i | ∃ t ∈ e.given, i ∈ t.region}

theorem keepsTo_run {r : Renderer} (hr : r.Local) (e : Entry) : Render.KeepsTo e.region (e.run r) := by
  have hgiven : ∀ t ∈ e.given, t.region ⊆ e.region := fun t ht i hi => ⟨t, ht, hi⟩
  have hdiscard {α : Type} {m : Render α} (hm : Render.KeepsTo e.region m) :
      Render.KeepsTo e.region (discard m) := (Render.KeepsTo.sequential e.region).map _ hm
  have hrelated (b : Bool) := hr.related b e.region
  cases e with
  | visit idiomatic t => exact hdiscard (hr.visit idiomatic (hgiven t (.head _)))
  | plain t => exact hdiscard (hr.visit false (hgiven t (.head _)))
  | castTo idiomatic expected t =>
    have ht : Tree.Inside _ t t := ⟨rfl, hgiven t (.head _)⟩
    exact hdiscard ((hrelated idiomatic).castSigned ht expected
      (Signed.both_ofTree (hrelated idiomatic).trees ht))
  | cast? idiomatic slot t =>
    exact hdiscard ((hrelated idiomatic).cast? ⟨rfl, hgiven t (.head _)⟩ slot)
  | arguments idiomatic callee slots ts =>
    exact hdiscard ((hrelated idiomatic).arguments callee slots (Tree.forall₂_inside hgiven))
  | query pairs =>
    refine hdiscard (Renderer.keepsTo_query? hr (forall₂_same.2 fun entry hentry => ?_))
    obtain ⟨p, hp, rfl⟩ := mem_map.1 hentry
    exact ⟨⟨rfl, hgiven p.1 (mem_flatMap.2 ⟨p, hp, by simp⟩)⟩,
      Shape.both_ofTree (hrelated true).trees
        ⟨rfl, hgiven p.2 (mem_flatMap.2 ⟨p, hp, by simp⟩)⟩⟩

end Entry

end QueryScribe
