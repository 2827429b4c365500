import QueryScribe.Proofs.Writing.Collection

/-!
# Queries

A query writes only nodes that stand in documents and arrays. These may be written as any type, since
nothing above them takes its type from them, so each step of building ends in a call, a refusal or an
expected fault, and what it has written can be written (`ends_steps`). The attempt to write a document
as a query therefore ends in a text or in none, and in a text only if the document can be written, but
for what a query leaves out (`ends_query?`).
-/

namespace QueryScribe

open List

open Render (Ends)

/-! ## Building -/

namespace Build

variable {α β : Type} {I : Marks → Prop} {E : Fault → Prop} {j : Journal}

/-- How building ends from a journal: in a refusal, in a result with a property or in one of some
faults. -/
def Ends (I : Marks → Prop) (E : Fault → Prop) (m : Build α) (j : Journal) (Q : α → Marks → Prop) :
    Prop :=
  Render.Ends I E m.run j fun result n => ∀ a, result = .ok a → Q a n

namespace Ends

variable {m : Build α} {f : α → Build β} {Q : α → Marks → Prop} {R : β → Marks → Prop}

theorem pure {a : α} (hj : I j.notes.mark) (h : Q a j.notes.mark) :
    Ends I E (pure a : Build α) j Q :=
  Render.Ends.pure (a := (Except.ok a : Except Refusal α)) hj fun _ heq => Except.ok.inj heq ▸ h

theorem refuse (reason : Refusal) (hj : I j.notes.mark) :
    Ends I E (Builder.refuse reason : Build α) j Q :=
  Render.Ends.pure (a := (Except.error reason : Except Refusal α)) hj nofun

theorem bind (hm : Ends I E m j Q)
    (hf : ∀ a k, Marks.After I j.notes.mark k.notes.mark → Q a k.notes.mark → Ends I E (f a) k R) :
    Ends I E (m >>= f) j R := by
  unfold Ends
  rw [ExceptT.run_bind]
  refine Render.Ends.bind hm fun result k hk hresult => ?_
  cases result with
  | ok a => exact hf a k hk (hresult a rfl)
  | error reason => exact .pure hk.keeps nofun

theorem lift {m : Render α} (hm : Render.Ends I E m j Q) : Ends I E (liftM m : Build α) j Q := by
  refine Render.Ends.map (g := (Except.ok : α → Except Refusal α)) (hm.imp fun a n _ ha x hx => ?_)
  exact Except.ok.inj hx ▸ ha

end Ends

end Build

/-! ## The steps of building -/

variable {setting : Setting} {target : Target} {t : Tree}

/-- Nothing above a node in a document or an array takes its type from it. -/
theorem Position.of_collects {root s : Tree} (hroot : root.Formed) (ht : t ∈ root.nodes)
    (h : t.Collects s) (n : Marks) (type : ValueType) :
    Position target root n type s := by
  obtain ⟨-, u, hu, hlisting, hs⟩ := h
  have hcontainer := Tree.isContainer_of_isListing hlisting
  have heq : ∀ v ∈ root.nodes, v.isContainer = false → s ∈ v.parts → v = u := fun v hv hvc hsv =>
    hroot.distinct.eq_of_mem_parts hv (Tree.mem_nodes_trans ht hu) hvc hcontainer hsv hs
  constructor
  · intro v hv hvcontainer hvlisting hsv
    rw [heq v hv hvcontainer hsv, hlisting] at hvlisting
    cases hvlisting
  · intro v hv hcall slot he
    obtain ⟨hvcontainer, hvlisting⟩ := Tree.isContainer_of_call hcall
    have hsv := hroot.mem_parts_of_mem_callArguments hv hcall (Tree.mem_callArguments_of_mem_slots he)
    rw [heq v hv hvcontainer hsv, hlisting] at hvlisting
    cases hvlisting

theorem Ready.written {root : Tree} {b : Bool} (h : Ready setting b t) (hroot : root.Formed)
    (ht : t ∈ root.nodes) (hvisited : t.isVisited) : Tree.Written root t := by
  intro s hs
  induction hs with
  | refl => exact ⟨ht, hvisited, h.admitted.1⟩
  | step hc _ ih =>
    have hmem := hroot.mem_parts_of_mem_operands ht hvisited h.admitted.1 hc
    have hnodes := Tree.mem_nodes_of_mem_parts hmem
    exact ih (h.of_mem_nodes hnodes (Tree.isContainer_of_mem_parts hmem) id)
      (Tree.mem_nodes_trans ht hnodes)
      (hroot.isVisited_of_mem_operands ht hvisited h.admitted.1 hc)

namespace Renderer

variable {r : Renderer} {root s t : Tree} {E : Fault → Prop} {j : Journal} {helpers : Helpers}

section Steps

variable (h : r.Stands root true t) (hdocument : t.isOf .objectLiteral)
  (hhelpers : r.target.helpers = some helpers)
  (hE : Allows r.setting root E (Ready r.setting true t))

/-- What is known of a node once a query has written it. -/
def Covered (r : Renderer) (root s : Tree) : Prop :=
  r.target.Marked → Tree.Writable r.setting root (r.setting.Queries true) s

theorem covered_of_wrote {b : Bool} {n : Marks} (hwrote : Wrote r.setting root b s n) :
    Covered r root s :=
  fun hmarked => (hwrote.writable hmarked).mono fun h => ⟨rfl, h.2⟩

include h hE

theorem ends_plain (hs : t.Collects s) (hj : Coherent r.target root j.notes.mark) :
    Build.Ends (Coherent r.target root) E (Builder.plain ⟨r, helpers⟩ s) j fun call n =>
      Wrote r.setting root false s n ∧ ∃ text, call = .text text ∧ Spelled r.target s text := by
  obtain ⟨hnodes, hheight⟩ := hs.mem_nodes
  have hplain : false → true := nofun
  refine .bind (.lift (h.below s hnodes hheight hs.1 false hplain E j (hE.mono fun hready =>
    hready.of_mem_nodes hnodes (Tree.isContainer_of_isVisited hs.1) hplain) hj))
    fun text k hk ⟨hwrote, hspelled⟩ => ?_
  exact .pure hk.keeps ⟨hwrote, text, rfl, hspelled⟩

theorem ends_string (hs : t.Collects s) (hj : Coherent r.target root j.notes.mark) :
    Build.Ends (Coherent r.target root) E (Builder.string ⟨r, helpers⟩ s) j fun _ _ =>
      Covered r root s := by
  refine .bind (ends_plain h hE hs hj) fun call k hk ⟨hwrote, _⟩ => ?_
  refine .bind (.lift (.typeOf (Q := fun _ _ => True) hk.keeps (hwrote.typed s (.refl s))
    fun _ _ => trivial)) fun type k' hk' _ => ?_
  split
  · exact .pure hk'.keeps (covered_of_wrote hwrote)
  · exact .refuse _ hk'.keeps

include hdocument hhelpers

omit h hE in
/-- The numbers that a query converts can be converted if the document is ready. -/
theorem convertible_of_ready (hready : Ready r.setting true t) (hs : (Shape.ofTree t).Converts s) :
    s.Convertible r.target :=
  hready.converts ⟨rfl, by rw [setting, hhelpers]; rfl⟩ t
    (Tree.self_mem_nodes (Tree.isNode_of_rule? (beq_iff_eq.1 hdocument))) hdocument s hs

/-- Writing a node of a query as a number of a type. -/
theorem ends_numeric {type : ValueType} (htype : type = .integer ∨ type = .decimal)
    (hs : t.Collects s) (hconverts : (Shape.ofTree t).Converts s)
    (hj : Coherent r.target root j.notes.mark) :
    Build.Ends (Coherent r.target root) E (Builder.numeric ⟨r, helpers⟩ type s) j fun _ _ =>
      Covered r root s := by
  obtain ⟨hnodes, hheight⟩ := hs.mem_nodes
  have hplain : false → true := nofun
  have hmem := Tree.mem_nodes_trans h.mem hnodes
  have hnumeric : (Slot.of [type]).numeric? = some type := by
    rcases htype with rfl | rfl
    · rfl
    · rfl
  have hoctal : (Slot.of [type]).numeric? ≠ some .octal := by
    rw [hnumeric]
    rcases htype with rfl | rfl
    · decide
    · decide
  refine .bind (.lift (ends_cast? (C := fun _ => True) h.formed hmem hs.1 (fun u hu hvisited => ?_)
    hoctal hE (fun hready => hready.of_mem_nodes hnodes (Tree.isContainer_of_isVisited hs.1) hplain)
    (fun hready _ expected _ _ _ hexpected => ?_) hj (fun _ _ _ _ _ => trivial)
    fun expected _ _ => .of_collects h.formed h.mem hs _ _)) fun text? k hk hwrote => ?_
  · exact h.below u (Tree.mem_nodes_trans hnodes hu)
      ((Tree.height_le_of_mem_nodes hu).trans_lt hheight) hvisited false hplain
  · rw [hnumeric] at hexpected
    cases hexpected
    have hwritten := (hready.of_mem_nodes hnodes (Tree.isContainer_of_isVisited hs.1)
      hplain).written h.formed hmem hs.1
    exact (Signed.views_ofTree s).castsTo_of_converts h.formed hwritten htype
      (convertible_of_ready hdocument hhelpers hready hconverts).1
  · cases text? with
    | some text => exact .pure hk.keeps (covered_of_wrote hwrote.1)
    | none =>
      refine .bind (.lift (.typeOf (Q := fun _ _ => True) hk.keeps (hwrote.1.typed s (.refl s))
        fun _ _ => trivial)) fun type k' hk' _ => ?_
      exact .refuse _ hk'.keeps

omit hdocument hhelpers hE in
/-- The value of a node of a query that has to be a number. That there is none is a refusal. -/
theorem ends_number {P : Prop} (hE : Allows r.setting root E P)
    (hP : P → Ready r.setting true t ∧ s.Convertible r.target) (hs : t.Collects s)
    (hj : Coherent r.target root j.notes.mark) :
    Build.Ends (Coherent r.target root) E (Builder.number ⟨r, helpers⟩ s) j fun value _ =>
      s.number? = some value ∧ Covered r root s := by
  unfold Builder.number
  rw [discard_bind]
  refine .bind (ends_plain h (hE.mono fun h => (hP h).1) hs hj) fun call k hk ⟨hwrote, _⟩ => ?_
  let E' : Fault → Prop := fun fault =>
    (∃ f : Failure, fault = .failure f ∧ f.kind = .evaluation) ∨ E fault
  have hvalue : Ends (Coherent r.target root) E' (r.numericValue s) k fun value _ =>
      s.number? = some value := by
    refine ends_signedValue h.formed (Signed.views_ofTree s) hwrote.written hk.keeps hwrote.typed
      (fun cause hcause _ => .inl ⟨⟨cause, none⟩, rfl, hcause⟩)
      fun _ ⟨u, hu, hlarge, hnumber, token, value, htoken, hvalue, hoverflow⟩ => .inr ?_
    refine hE _ (.large (hwrote.written u hu).1 hlarge) fun hready => ?_
    obtain ⟨value', hvalue', hint, -⟩ := (hP hready).2.1 u hu hnumber token htoken
    rw [hvalue] at hvalue'
    cases hvalue'
    rw [hoverflow] at hint
    cases hint
  refine Ends.tryCatch (hvalue.imp fun value _ _ hnumber => fun _ heq =>
    Except.ok.inj heq ▸ ⟨hnumber, covered_of_wrote hwrote⟩).map fun fault k' hk' hfault => ?_
  rcases hfault with ⟨f, rfl, hkind⟩ | hfault
  · dsimp only
    rw [if_pos hkind]
    exact .pure hk'.keeps nofun
  · split
    · split
      · exact .pure hk'.keeps nofun
      · exact .throw hk'.keeps hfault
    · exact .throw hk'.keeps hfault

theorem ends_steps : Builder.Covers ⟨r, helpers⟩ (Shape.ofTree t) t.Collects (Covered r root)
    fun (α : Type) (m : Build α) C => ∀ j, Coherent r.target root j.notes.mark →
      Build.Ends (Coherent r.target root) E m j fun _ _ => C where
  pure _ hC _ hj := .pure hj hC
  bind hx hf j hj := .bind (hx j hj) fun a k hk hC => hf a hC k hk.keeps
  refuse reason _ hj := .refuse reason hj
  call family key args j hj := by
    unfold Builder.call
    split
    · exact .bind (.lift (.note (Q := fun _ _ => True) (.refl hj) trivial fun _ hk => hk))
        fun _ k hk _ => .pure hk.keeps trivial
    · exact .refuse _ hj
  list items j hj := .bind (.lift (.use (Q := fun _ _ => True) _ hj trivial)) fun _ k hk _ =>
    .pure hk.keeps trivial
  plain ht j hj := Render.Ends.imp (ends_plain h hE ht hj) fun _ _ _ hresult a ha =>
    covered_of_wrote (hresult a ha).1
  string ht j hj := ends_string h hE ht hj
  numeric htype ht hconverts j hj := ends_numeric h hdocument hhelpers hE htype ht hconverts hj
  number ht hconverts hf j hj := .bind (ends_number h hE (fun hready =>
    ⟨hready, convertible_of_ready hdocument hhelpers hready hconverts⟩) ht hj) fun n k hk hn => hf n hn.1 hn.2 k hk.keeps
  shown {s n} ht hconverts hn j hj := by
    refine .lift (.ofConversion hj (fun fault hfault => ?_) fun _ _ => trivial)
    obtain ⟨rfl, hlong⟩ := Number.write_eq_error hfault
    refine hE _ (.long (Tree.mem_nodes_trans h.mem ht.mem_nodes.1) (.inl ⟨n, hn, hlong⟩))
      fun hready => ?_
    have hshown := (convertible_of_ready hdocument hhelpers hready hconverts).2 n hn
    rw [hfault] at hshown
    cases hshown
  key ht hreads hkey _ :=
    Shape.writable_key h.formed h.mem hdocument ⟨rfl, by rw [setting, hhelpers]; rfl⟩ hreads ht hkey
  flag ht hreads hflag hmarked :=
    Shape.writable_flag h.formed h.mem hdocument ⟨rfl, by rw [setting, hhelpers]; rfl⟩ hreads ht
      hmarked hflag
  entry hs he := (hs.collects h.formed h.mem hdocument).1 _ he
  item hs hi := (hs.collects h.formed h.mem hdocument).2 _ hi
  document hs hentries hmarked :=
    Shape.writable_document h.formed h.mem hdocument ⟨rfl, by rw [setting, hhelpers]; rfl⟩ hs
      fun e he => ⟨(hentries e he).1 hmarked, (hentries e he).2.imp_left fun h => h hmarked⟩
  array hs hitems hmarked :=
    Shape.writable_array h.formed h.mem hdocument ⟨rfl, by rw [setting, hhelpers]; rfl⟩ hs
      fun i hi => hitems i hi hmarked

end Steps

/-- The attempt to write a document as a query ends in a text or in none, with the notes from before,
or in an expected fault. There is a text only for a target with helpers, and only if the document can
be written but for what a query leaves out. -/
theorem ends_query? (h : r.Stands root true t) (hdocument : t.isOf .objectLiteral)
    (hE : Allows r.setting root E (Ready r.setting true t)) (hj : Coherent r.target root j.notes.mark) :
    Ends (Coherent r.target root) E (r.query? (Shape.ofTree t).entries) j fun text? _ =>
      text?.isSome → Covered r root t := by
  cases hhelpers : r.target.helpers with
  | none =>
    unfold query?
    rw [hhelpers]
    exact .pure hj nofun
  | some helpers =>
    by_cases hentries : (Shape.ofTree t).entries = []
    · unfold query?
      simp only [hhelpers, hentries]
      exact .pure hj nofun
    · have hsteps := ends_steps h hdocument hhelpers hE
      obtain ⟨entries, hshape⟩ : ∃ entries, Shape.ofTree t = .document t entries := by
        have htree : (Shape.ofTree t).tree = t := Shape.tree_under t t
        cases hshape : Shape.ofTree t with
        | document x entries =>
          rw [hshape] at htree
          exact ⟨entries, by rw [show x = t from htree]⟩
        | array x items => exact absurd (by rw [hshape]; rfl) hentries
        | scalar x => exact absurd (by rw [hshape]; rfl) hentries
      rw [hshape] at hsteps hentries ⊢
      obtain ⟨hafter, hends, halike⟩ := hsteps.query j hj
      have hquery := exec_query? hhelpers hentries
      dsimp only [Shape.entries] at hquery ⊢
      rcases hexec : Render.exec (Builder.query ⟨r, helpers⟩ entries).run j with
        ⟨fault | (reason | call), j'⟩
      all_goals rw [hexec] at hafter hends halike
      · exact .after_end hexec hafter halike (fun hl => by rw [hquery, hl]; rfl)
          (.throw (e := fault) hafter.keeps hends)
      · -- An attempt that is given up leaves the notes from before.
        have hnone : ∀ l l' : Journal, Render.exec (Builder.query ⟨r, helpers⟩ entries).run l =
            (.ok (.error reason), l') → Render.exec (r.query? entries) l =
              (.ok none, ⟨l.notes, .plainDocument reason :: l'.log, l'.idiomatic⟩) :=
          fun l l' hl => by rw [hquery, hl]
        refine .of_ok (hnone j j' hexec) (.refl hj) (fun h => nomatch h) fun k hk => ?_
        obtain ⟨k', hexec', -⟩ := halike k hk
        exact ⟨_, hnone k k' hexec', hk⟩
      · exact .after_end hexec hafter halike (fun hl => by rw [hquery, hl]; rfl)
          (.pure (a := some (call.write r.target)) hafter.keeps fun _ => hends call rfl)

end Renderer

end QueryScribe
