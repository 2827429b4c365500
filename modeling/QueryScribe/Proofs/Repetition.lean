import QueryScribe.Proofs.Statements
import QueryScribe.Proofs.Writing.Visit

/-!
# Nodes that are written again

A node that is written again is not always written alike: a number that was written as another type is
written in its own type by the second visit (`second_visit_of_conversion_differs`). This is all that
can change. Where the first visit writes nothing as another type, it leaves natural types only, and a
visit is the same with natural types noted ahead, so the second visit writes the same text
(`second_visit_of_uncast_agrees`).

Nodes that only list others are not written by the visits of programs. Visited on their own they are
written as their children, one after the other (`resumes_of_children`).
-/

namespace QueryScribe

open List

open Render Renderer

namespace Render

variable {α β : Type} {m : Render α} {f : α → Render β} {j j' : Journal}

theorem exec_bind_of_ok {a : α} (h : exec m j = (.ok a, j')) : exec (m >>= f) j = exec (f a) j' := by
  rw [exec_bind, h]

theorem exists_of_exec_bind {b : β} (h : exec (m >>= f) j = (.ok b, j')) :
    ∃ a l, exec m j = (.ok a, l) ∧ exec (f a) l = (.ok b, j') := by
  rw [exec_bind] at h
  rcases hm : exec m j with ⟨fault | a, l⟩
  · rw [hm] at h
    cases h
  · rw [hm] at h
    exact ⟨a, l, rfl, h⟩

end Render

/-! ## Nodes that stand where one is written -/

theorem Tree.Formed.of_mem_children {t c : Tree} (h : t.Formed) (hc : c ∈ t.children) : c.Formed where
  distinct := h.distinct.of_mem_children hc
  form hmem := h.form (mem_nodes_of_mem_children hc hmem)

/-- Natural types that were noted from the start are types ahead. -/
theorem Coherent.ahead {target : Target} {t : Tree} {n m : Marks} (hm : Coherent target t m)
    (huncast : ∀ s ∈ t.nodes, (m s.id).own = none) (hblank : ∀ i, n i = ⟨none, none⟩) :
    Marks.Ahead (Coherent target t) n m := by
  intro i
  by_cases hi : ∃ s ∈ t.nodes, s.id = i
  · obtain ⟨s, hs, rfl⟩ := hi
    rcases hm.fits s hs with hmark | hmark | ⟨-, type, -, hmark⟩
    · exact .inl (hmark.trans (hblank s.id).symm)
    · refine .inr ⟨hblank s.id, s.natural, hmark, fun p hp hown type htype => ?_⟩
      exact (hp.fits s hs).eq_natural hown htype
    · have hown := huncast s hs
      rw [hmark] at hown
      cases hown
  · refine .inl ?_
    rw [hblank i, hm.outside i fun s hs hid => hi ⟨s, hs, hid⟩]

/-! ## All nodes -/

/-- A node that was written with nothing noted of it, and nothing of it as another type, is written
alike with the notes that this left. -/
def Resumes (target : Target) (text : Source) (b : Bool) (t : Tree) : Prop :=
  ∀ (j j' k : Journal) (v : String), (∀ i ∈ t.region, j.notes.mark i = ⟨none, none⟩) →
    exec (render target text b t) j = (.ok v, j') → (∀ s ∈ t.nodes, (j'.notes.mark s.id).own = none) →
      j'.notes.AgreeOn t.region k.notes →
        ∃ k', exec (render target text b t) k = (.ok v, k') ∧ (t.isNode → Marks.Typed k'.notes.mark t)

section Resumes

variable {target : Target} {text : Source} {b : Bool} {t : Tree}

/-- A node that stands where one is written. -/
theorem resumes_of_isVisited (ht : t.Formed) (hvisited : t.isVisited) : Resumes target text b t := by
  intro j j' k v hblank hexec huncast hagree
  have hregion : ∀ s ∈ t.nodes, s.id ∈ t.region := fun s hs =>
    Tree.region_subset_of_mem_nodes hs s.id_mem_region
  have hempty : ∀ i, ({} : Journal).notes.mark i = ⟨none, none⟩ := fun i => by simp [Notes.mark]
  -- The node is written as with no notes at all, since there are none of it.
  obtain ⟨_, hcongr⟩ := (keepsTo_render target text b t).congr {}
  obtain ⟨hresult, hmarks, -⟩ := hcongr j fun i hi => by rw [hblank i hi, hempty]
  obtain ⟨⟨hcoherent, -⟩, htyped, halike⟩ := ends_alone ht hvisited target text b
  rcases hfirst : exec (render target text b t) {} with ⟨end', l⟩
  rw [hfirst] at hresult hmarks hcoherent htyped halike
  rw [hexec] at hresult hmarks
  obtain rfl : .ok v = end' := hresult
  have hahead : Marks.Ahead (Coherent target t) ({} : Journal).notes.mark l.notes.mark := by
    refine hcoherent.ahead (fun s hs => ?_) hempty
    rw [hmarks s.id (hregion s hs)]
    exact huncast s hs
  obtain ⟨l', hsecond, hahead'⟩ := halike l hahead
  -- The journal of the second visit has the same notes of the node.
  obtain ⟨_, hcongr'⟩ := (keepsTo_render target text b t).congr l
  obtain ⟨hresult', hmarks', -⟩ := hcongr' k fun i hi => (hmarks i hi).trans (hagree i hi)
  rw [hsecond] at hresult' hmarks'
  have hthird : exec (render target text b t) k = (.ok v, (exec (render target text b t) k).2) :=
    Prod.ext hresult' rfl
  refine ⟨_, hthird, fun _ => ?_⟩
  rw [Marks.Typed, ← hmarks' t.id t.id_mem_region, hahead'.eq_of_typed htyped]
  exact htyped

/-- Nodes whose regions are apart are written again one after the other. -/
theorem resumes_mapM {ts : List Tree} (hts : Tree.Apart ts) (h : ∀ s ∈ ts, Resumes target text b s)
    {j j' k : Journal} {vs : List String}
    (hblank : ∀ s ∈ ts, ∀ i ∈ s.region, j.notes.mark i = ⟨none, none⟩)
    (hexec : exec (ts.mapM (render target text b)) j = (.ok vs, j'))
    (huncast : ∀ s ∈ ts, ∀ u ∈ s.nodes, (j'.notes.mark u.id).own = none)
    (hagree : ∀ s ∈ ts, j'.notes.AgreeOn s.region k.notes) :
    ∃ k', exec (ts.mapM (render target text b)) k = (.ok vs, k') ∧
      ∀ s ∈ ts, s.isNode → Marks.Typed k'.notes.mark s := by
  induction ts generalizing j k vs with
  | nil =>
    cases hexec
    exact ⟨k, rfl, nofun⟩
  | cons t ts ih =>
    obtain ⟨hapart, hts⟩ := pairwise_cons.1 hts
    have hkeeps := keepsTo_render target text b t
    have hrest : KeepsTo {i | ∃ s ∈ ts, i ∈ s.region} (ts.mapM (render target text b)) :=
      (KeepsTo.sequential _).mapM fun s hs =>
        (keepsTo_render target text b s).mono fun i hi => ⟨s, hs, hi⟩
    have hnot : ∀ i ∈ t.region, i ∉ {i | ∃ s ∈ ts, i ∈ s.region} := fun i hi ⟨s, hs, his⟩ =>
      Set.disjoint_left.1 (hapart s hs) hi his
    rw [mapM_cons] at hexec ⊢
    obtain ⟨v, j₁, hfirst, hexec⟩ := exists_of_exec_bind hexec
    obtain ⟨vs', j₂, hothers, hexec⟩ := exists_of_exec_bind hexec
    cases hexec
    -- The first node finds its own notes, since the others keep to their regions.
    have hsame : ∀ i ∈ t.region, j'.notes.mark i = j₁.notes.mark i := fun i hi => by
      have hframe := hrest.frame j₁ i (hnot i hi)
      rwa [hothers] at hframe
    obtain ⟨k₁, hk₁, htyped⟩ := h t (.head _) j j₁ k v (hblank t (.head _)) hfirst
      (fun u hu => by
        rw [← hsame u.id (Tree.region_subset_of_mem_nodes hu u.id_mem_region)]
        exact huncast t (.head _) u hu)
      fun i hi => (hsame i hi).symm.trans (hagree t (.head _) i hi)
    -- And so do the others after the first.
    have hframe : ∀ s ∈ ts, ∀ i ∈ s.region, j₁.notes.mark i = j.notes.mark i ∧
        k₁.notes.mark i = k.notes.mark i := fun s hs i hi => by
      have hi' : i ∉ t.region := Set.disjoint_right.1 (hapart s hs) hi
      have hj := hkeeps.frame j i hi'
      have hk := hkeeps.frame k i hi'
      rw [hfirst] at hj
      rw [hk₁] at hk
      exact ⟨hj, hk⟩
    obtain ⟨k₂, hk₂, htypeds⟩ := ih hts (fun s hs => h s (mem_cons_of_mem t hs))
      (fun s hs i hi => (hframe s hs i hi).1.trans (hblank s (mem_cons_of_mem t hs) i hi)) hothers
      (fun s hs => huncast s (mem_cons_of_mem t hs))
      (k := k₁) fun s hs i hi =>
        (hagree s (mem_cons_of_mem t hs) i hi).trans (hframe s hs i hi).2.symm
    refine ⟨k₂, ?_, forall_mem_cons.2 ⟨fun hnode => ?_, htypeds⟩⟩
    · rw [exec_bind_of_ok hk₁, exec_bind_of_ok hk₂]
      rfl
    · have hkept := (hrest.kept k₁ t.id).type (htyped hnode)
      rwa [hk₂] at hkept

/-- An action that gives a node a type where some others have theirs, and changes no other mark. -/
structure GivesType (t : Tree) (ts : List Tree) (note : Render Unit) : Prop where
  frame : ∀ (j : Journal) (i : Nat), i ≠ t.id → (exec note j).2.notes.mark i = j.notes.mark i
  typed : ∀ k : Journal, (∀ s ∈ ts, s.isNode → Marks.Typed k.notes.mark s) →
    ∃ k', exec note k = (.ok (), k') ∧ Marks.Typed k'.notes.mark t

theorem GivesType.setType (ts : List Tree) (type : ValueType) :
    GivesType t ts (Render.setType t type) where
  frame j i hi := by
    rw [Render.setType, Render.exec_note, Notes.mark_setType, if_neg hi]
  typed k _ := by
    refine ⟨_, rfl, ?_⟩
    rw [Marks.Typed, Notes.mark_setType, if_pos rfl, Mark.withType, Option.isSome_or]
    exact Bool.or_true _

theorem GivesType.typeOf {s : Tree} {ts : List Tree} (hs : s ∈ ts) (hnode : s.isNode) :
    GivesType t ts (Render.typeOf s >>= Render.setType t) where
  frame j i hi := by
    rw [exec_bind, exec_typeOf]
    cases j.notes.type? s with
    | none => rfl
    | some type => exact (setType ts type).frame j i hi
  typed k hk := by
    obtain ⟨type, htype⟩ := Option.isSome_iff_exists.1 (hk s hs hnode)
    have hexec : exec (Render.typeOf s) k = (.ok type, k) := by
      rw [exec_typeOf, Notes.type?_eq_of_mark htype]
    rw [exec_bind_of_ok hexec]
    exact (setType ts type).typed k hk

/-- A node that is written as some of its children, and gets a type after them. -/
theorem resumes_of_children (ht : t.Distinct) {ts : List Tree} (hts : ts.Sublist t.children)
    (h : ∀ s ∈ ts, Resumes target text b s) {note : Render Unit} (hnote : GivesType t ts note)
    (join : List String → String)
    (hrender : render target text b t = do
      let texts ← ts.mapM (render target text b)
      note
      return join texts) : Resumes target text b t := by
  intro j j' k v hblank hexec huncast hagree
  have hregion : ∀ s ∈ ts, s.region ⊆ t.region := fun s hs =>
    Tree.region_subset_of_mem_children (hts.subset hs)
  rw [hrender] at hexec ⊢
  obtain ⟨texts, j₁, hall, hexec⟩ := exists_of_exec_bind hexec
  obtain ⟨_, j₂, hend, hexec⟩ := exists_of_exec_bind hexec
  cases hexec
  have hsame : ∀ s ∈ ts, ∀ i ∈ s.region, j'.notes.mark i = j₁.notes.mark i := fun s hs i hi => by
    have hmark := hnote.frame j₁ i fun heq => ht.id_notMem_region (hts.subset hs) (heq ▸ hi)
    rwa [hend] at hmark
  obtain ⟨k₁, hk₁, htyped⟩ := resumes_mapM (ht.apart_children.sublist hts) h
    (fun s hs i hi => hblank i (hregion s hs hi)) hall
    (fun s hs u hu => by
      rw [← hsame s hs u.id (Tree.region_subset_of_mem_nodes hu u.id_mem_region)]
      exact huncast u (Tree.mem_nodes_of_mem_children (hts.subset hs) hu))
    (k := k) fun s hs i hi => (hsame s hs i hi).symm.trans (hagree i (hregion s hs hi))
  obtain ⟨k₂, hk₂, hroot⟩ := hnote.typed k₁ htyped
  refine ⟨k₂, ?_, fun _ => hroot⟩
  rw [exec_bind_of_ok hk₁, exec_bind_of_ok hk₂]
  rfl

end Resumes

/-! ## Nodes that are written as their children -/

namespace Renderer

variable (r : Renderer) (b : Bool)

/-- Notes the type of the first child for a node, if it is an inner node. -/
def noteFirst (t : Tree) : Render Unit :=
  match t.children with
  | .node id rule span cs :: _ => Render.typeOf (.node id rule span cs) >>= Render.setType t
  | _ => Render.setType t .undefined

theorem concatenation_eq (t : Tree) :
    r.concatenation b t = do
      let texts ← t.children.mapM (r.visit b)
      noteFirst t
      return String.join texts := by
  unfold concatenation noteFirst
  refine bind_congr fun texts => ?_
  cases t.children with
  | nil => rfl
  | cons c cs =>
    cases c with
    | leaf => rfl
    | node => exact (bind_assoc _ _ _).symm

theorem collapse_eq {t : Tree} (h : t.isPassThrough) : r.collapse b t = r.concatenation b t := by
  unfold Tree.isPassThrough at h
  split at h
  · rename_i child
    cases child with
    | leaf => cases h
    | node =>
      unfold collapse concatenation
      simp [Tree.children, String.join]
  · cases h

theorem ofRule_of_not_isVisited {i : Nat} {rule : Rule} {span : Span} {cs : List Tree}
    (hrule : rule.isVisited = false) (hprogram : rule ≠ .fileInput) :
    r.ofRule b (.node i rule span cs) rule = r.concatenation b (.node i rule span cs) := by
  have hunless : r.ofRule b (.node i rule span cs) rule =
      r.unlessPassThrough b (.node i rule span cs) (r.concatenation b (.node i rule span cs)) := by
    cases rule
    all_goals first | rfl | exact absurd rfl hprogram | cases hrule
  rw [hunless, unlessPassThrough]
  split
  · exact r.collapse_eq b ‹_›
  · rfl

end Renderer

section Children

variable {target : Target} {text : Source} {b : Bool} {t : Tree}

theorem mapM_visit_below {ts : List Tree} (hts : ts.Sublist t.children) :
    ts.mapM ((below target text t).visit b) = ts.mapM (render target text b) :=
  mapM_congr_of_mem fun _ hc => visit_below b (hts.subset hc)

theorem GivesType.noteFirst (t : Tree) : GivesType t t.children (Renderer.noteFirst t) := by
  unfold Renderer.noteFirst
  cases t.children with
  | nil => exact .setType _ _
  | cons c cs =>
    cases c with
    | leaf => exact .setType _ _
    | node => exact .typeOf (.head _) rfl

theorem resumes_program {i : Nat} {span : Span} {cs : List Tree}
    (ht : (Tree.node i .fileInput span cs).Distinct) (h : ∀ s ∈ cs, Resumes target text b s) :
    Resumes target text b (.node i .fileInput span cs) := by
  have hsublist : (Tree.node i .fileInput span cs).subtrees.Sublist cs := filter_sublist
  refine resumes_of_children ht hsublist (fun s hs => h s (hsublist.subset hs))
    (.setType _ .undefined) (fun texts => "\n".intercalate texts ++ target.endOfProgram) ?_
  rw [render_eq_step]
  change (below target text _).program b _ = _
  rw [program, mapM_visit_below hsublist, below, target_within]

theorem resumes_of_formed (ht : t.Formed) : Resumes target text b t := by
  induction t using Tree.induction with
  | leaf i token =>
    rintro j j' k v - hexec - -
    cases hexec
    exact ⟨k, rfl, nofun⟩
  | node i rule span cs ih =>
    have hchildren : ∀ s ∈ cs, Resumes target text b s := fun s hs => ih s hs (ht.of_mem_children hs)
    cases hrule : rule.isVisited with
    | true => exact resumes_of_isVisited ht hrule
    | false =>
      by_cases hprogram : rule = .fileInput
      · subst hprogram
        exact resumes_program ht.distinct hchildren
      · refine resumes_of_children ht.distinct (.refl cs) hchildren (.noteFirst _) String.join ?_
        rw [render_eq_step]
        change (below target text _).ofRule b _ rule = _
        rw [ofRule_of_not_isVisited _ b hrule hprogram, concatenation_eq,
          mapM_visit_below (.refl _)]
        rfl

end Children

/-- A node of a source that was written without writing anything below it as another type is written
as the same text when it is visited again. -/
theorem second_visit_of_uncast_agrees {source : String} {root t : Tree} (hparse : parse source = .ok root)
    (ht : t ∈ root.nodes) (target : Target) (input : Source) (idiomatic : Bool) {v : String}
    {j : Journal} (hfirst : exec (render target input idiomatic t) {} = (.ok v, j))
    (huncast : ∀ s ∈ t.nodes, (j.notes.mark s.id).own = none) :
    (exec (render target input idiomatic t) j).1 = .ok v := by
  have hformed := (Tree.formed_of_parse hparse).of_mem_nodes ht
  obtain ⟨k, hk, -⟩ := resumes_of_formed hformed {} j j v (fun i _ => by simp [Notes.mark]) hfirst
    huncast (.refl _ _)
  rw [hk]

/-- A conversion of what is a number of its type already leaves natural types only. -/
theorem second_visit_of_conversions_agrees :
    ∃ root v j, parse "float(float('7'))" = .ok root ∧ root ∈ root.nodes ∧
      exec (render .java ⟨normalize "float(float('7'))", default⟩ false root) {} = (.ok v, j) ∧
      (∀ s ∈ root.nodes, (j.notes.mark s.id).own = none) ∧
      (exec (render .java ⟨normalize "float(float('7'))", default⟩ false root) j).1 = .ok v := by
  have h : ∃ root ∈ (parse "float(float('7'))").toOption, root.isNode ∧
      (exec (render .java ⟨normalize "float(float('7'))", default⟩ false root) {}).1 =
        .ok "Double.parseDouble(\"7\")d" ∧
      ∀ s ∈ root.nodes, ((exec (render .java ⟨normalize "float(float('7'))", default⟩ false root)
        {}).2.notes.mark s.id).own = none := by
    decide +kernel
  obtain ⟨root, hroot, hnode, hfirst, huncast⟩ := h
  have hparse := eq_ok_of_mem_toOption hroot
  have hself := Tree.self_mem_nodes hnode
  exact ⟨root, _, _, hparse, hself, Prod.ext hfirst rfl, huncast,
    second_visit_of_uncast_agrees hparse hself .java _ false (Prod.ext hfirst rfl) huncast⟩

/-- A number that a conversion has written as another type is written in its own type by the second
visit, since its node then has the type that the conversion asks for. -/
theorem second_visit_of_conversion_differs :
    ∃ root ∈ (parse "int(5)").toOption, ∃ t ∈ root.nodes,
      (exec (render .java ⟨normalize "int(5)", default⟩ false t) {}).1 = .ok "5" ∧
        (exec (render .java ⟨normalize "int(5)", default⟩ false t)
          (exec (render .java ⟨normalize "int(5)", default⟩ false t) {}).2).1 = .ok "5L" := by
  decide +kernel

end QueryScribe
