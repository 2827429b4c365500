import QueryScribe.Proofs.Locality.Visit
import QueryScribe.Proofs.Reading
import QueryScribe.Target

/-!
# Statements do not interfere

The statements of a program are written one after the other over the same notes, but their regions
are apart, so each finds its own region as blank as if it were written alone (`exec_mapM_of_apart`).
A program is therefore the join of its statements: it fails where the first of them fails, and what
it records is what they record one after the other.
-/

namespace QueryScribe

open List

open Render (exec KeepsTo)

/-- Actions that keep to regions apart from each other do in a row what each does from the start:
they give the same results up to the first fault, and record the same. -/
theorem Render.exec_mapM_of_apart {α : Type} {f : Tree → Render α}
    (hf : ∀ t, KeepsTo t.region (f t)) (start : Journal) {records : Tree → List Record}
    (hrecords : ∀ t (k : Journal), start.notes.AgreeOn t.region k.notes →
      (exec (f t) k).1 = (exec (f t) start).1 ∧
        (exec (f t) k).2.notes.usage = k.notes.usage.writeAll (records t))
    {ts : List Tree} (hts : Tree.Apart ts) {j : Journal}
    (hj : ∀ t ∈ ts, start.notes.AgreeOn t.region j.notes) :
    (exec (ts.mapM f) j).1 = ts.mapM (fun t => (exec (f t) start).1) ∧
      ((exec (ts.mapM f) j).1.isOk →
        (exec (ts.mapM f) j).2.notes.usage = j.notes.usage.writeAll (ts.flatMap records)) := by
  induction ts generalizing j with
  | nil => exact ⟨rfl, fun _ => rfl⟩
  | cons t ts ih =>
    obtain ⟨hapart, hts⟩ := pairwise_cons.1 hts
    obtain ⟨hresult, husage⟩ := hrecords t j (hj t (.head _))
    have hframe := (hf t).frame j
    rw [mapM_cons, mapM_cons, exec_bind, ← hresult]
    rcases hexec : exec (f t) j with ⟨fault | a, j'⟩
    · exact ⟨rfl, by rintro ⟨⟩⟩
    · rw [hexec] at hframe husage
      -- The regions of the rest are as they were before the first.
      have hj' : ∀ s ∈ ts, start.notes.AgreeOn s.region j'.notes := by
        intro s hs i hi
        rw [hj s (mem_cons_of_mem t hs) i hi]
        exact (hframe i (Set.disjoint_right.1 (hapart s hs) hi)).symm
      obtain ⟨hresults, husages⟩ := ih hts hj'
      dsimp only
      rw [exec_bind, ← hresults]
      rcases hrest : exec (ts.mapM f) j' with ⟨fault | as, j''⟩
      · exact ⟨rfl, by rintro ⟨⟩⟩
      · rw [hrest] at husages
        refine ⟨rfl, fun _ => ?_⟩
        rw [flatMap_cons, Usage.writeAll_append, ← husage]
        exact husages rfl

theorem mapM_congr_of_mem {α β : Type} {f g : α → Render β} {l : List α}
    (h : ∀ a ∈ l, f a = g a) : l.mapM f = l.mapM g := by
  induction l with
  | nil => rfl
  | cons a l ih =>
    rw [mapM_cons, mapM_cons, h a (.head _),
      ih fun b hb => h b (mem_cons_of_mem a hb)]

/-- The result of writing a node with fresh notes, and the journal it leaves. -/
def alone (target : Target) (source : Source) (idiomatic : Bool) (t : Tree) :
    Except Fault String × Journal :=
  exec (render target source idiomatic t) {}

theorem alone_program (target : Target) (source : Source) (idiomatic : Bool) {t : Tree}
    (ht : t.rule? = some .fileInput) :
    alone target source idiomatic t =
      match exec (t.subtrees.mapM (render target source idiomatic)) {} with
      | (.ok texts, j) => (.ok ("\n".intercalate texts ++ target.endOfProgram),
          { j with notes := j.notes.setType t .undefined })
      | (.error fault, j) => (.error fault, j) := by
  have hvisit : t.subtrees.mapM ((Renderer.below target source t).visit idiomatic) =
      t.subtrees.mapM (render target source idiomatic) := mapM_congr_of_mem fun s hs =>
    Renderer.visit_below idiomatic (Tree.mem_children_of_mem_subtrees hs)
  rw [alone, Renderer.render_eq_step, ← hvisit]
  cases t with
  | leaf => cases ht
  | node id rule span children =>
    cases ht
    change exec ((Renderer.below target source _).program idiomatic _) {} = _
    rw [Renderer.program, Renderer.below, Renderer.target_within, Render.exec_bind]
    rcases exec (List.mapM _ _) {} with ⟨fault | texts, j⟩
    · rfl
    · rfl

/-- The statements of a program do not interfere. Whatever the program is written for, its result is
the join of the results of its statements, each written alone: the texts on lines of their own if all
can be written, the first failure otherwise. If all can be written, the program uses a code iff one
of them does, and the names under it are theirs, one statement after the other. -/
theorem program_eq_join_of_statements {source : String} {t : Tree} (h : parse source = .ok t)
    (target : Target) (input : Source) (idiomatic : Bool) :
    (alone target input idiomatic t).1 =
        (t.subtrees.mapM fun s => (alone target input idiomatic s).1).map
          (fun texts => "\n".intercalate texts ++ target.endOfProgram) ∧
      ((alone target input idiomatic t).1.isOk → ∀ code : Int,
        (((alone target input idiomatic t).2.notes.usage.get? code).isSome ↔
          ∃ s ∈ t.subtrees,
            ((alone target input idiomatic s).2.notes.usage.get? code).isSome) ∧
        (alone target input idiomatic t).2.notes.usage.names code =
          t.subtrees.flatMap fun s =>
            (alone target input idiomatic s).2.notes.usage.names code) := by
  choose records hrecords using fun s =>
    (keepsTo_render target input idiomatic s).congr {}
  have husageAlone : ∀ s, (alone target input idiomatic s).2.notes.usage =
      ({} : Usage).writeAll (records s) := fun s =>
    (hrecords s {} (Notes.AgreeOn.refl _ _)).2.2
  obtain ⟨hresults, husage⟩ := Render.exec_mapM_of_apart (j := {})
    (keepsTo_render target input idiomatic) {}
    (fun s k hk => ⟨(hrecords s k hk).1, (hrecords s k hk).2.2⟩)
    (Tree.distinct_of_parse h).apart_subtrees fun s _ => Notes.AgreeOn.refl _ _
  change _ = t.subtrees.mapM (fun s => (alone target input idiomatic s).1) at hresults
  rw [← hresults, alone_program target _ idiomatic (rule?_of_parse h)]
  rcases hexec : exec (t.subtrees.mapM (render target input idiomatic)) {} with
    ⟨fault | texts, j⟩
  · exact ⟨rfl, by rintro ⟨⟩⟩
  · rw [hexec] at husage
    have hwritten : j.notes.usage = ({} : Usage).writeAll (t.subtrees.flatMap records) := husage rfl
    refine ⟨rfl, fun _ code => ?_⟩
    change ((j.notes.usage.get? code).isSome ↔ _) ∧ j.notes.usage.names code = _
    simp only [hwritten, husageAlone, Usage.isSome_get?_writeAll, Usage.names_writeAll,
      List.mem_flatMap, List.filterMap_flatMap]
    refine ⟨⟨?_, ?_⟩, trivial⟩
    · rintro ⟨r, ⟨s, hs, hr⟩, hcode⟩
      exact ⟨s, hs, r, hr, hcode⟩
    · rintro ⟨s, hs, r, hr, hcode⟩
      exact ⟨r, ⟨s, hs, hr⟩, hcode⟩

/-- Two conversions, each of which notes that its argument is written as another type. -/
theorem program_eq_join_of_two_conversions :
    ∃ t, parse "int(5)\nfloat(7)" = .ok t ∧ t.subtrees.length = 2 ∧
      (alone .java ⟨normalize "int(5)\nfloat(7)", default⟩ true t).1 =
        (t.subtrees.mapM fun s => (alone .java ⟨normalize "int(5)\nfloat(7)", default⟩ true s).1).map
          (fun texts => "\n".intercalate texts ++ Target.java.endOfProgram) := by
  have h : ∃ t ∈ (parse "int(5)\nfloat(7)").toOption, t.subtrees.length = 2 := by decide +kernel
  obtain ⟨t, ht, hlength⟩ := h
  have hparse : parse "int(5)\nfloat(7)" = .ok t := eq_ok_of_mem_toOption ht
  exact ⟨t, hparse, hlength, (program_eq_join_of_statements hparse .java _ true).1⟩

end QueryScribe
