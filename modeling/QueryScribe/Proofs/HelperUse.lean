import QueryScribe.Proofs.Accounting.Query
import QueryScribe.Proofs.Natural
import QueryScribe.Proofs.Shapes
import QueryScribe.Target.Java

/-!
# Where helpers are used

Helpers are called by queries only. What a query writes plainly, and what is written where there is
no query, is the same as on a target without helpers (`plain_visit_ignores_helpers`). The names that
a query leaves under the codes of the families are those of the helpers that it calls, and all else
in its text is written of nodes inside its document (`query_records_its_helpers`).

That a query writes no other nodes is seen by taking them away: a builder over a renderer that fails
at all other nodes builds the same query (`Builder.related_only`).
-/

namespace QueryScribe

open Renderer

/-- A tree stands below another. -/
inductive Tree.Inner (t : Tree) : Tree → Prop
  | child {c : Tree} (h : c ∈ t.children) : Inner t c
  | step {s c : Tree} (hs : Inner t s) (h : c ∈ s.children) : Inner t c

namespace Renderer

/-- A text that a renderer writes of one of some nodes in the plain style, be it the node as it is or
as an argument of some type. -/
def WritesPlainly (r : Renderer) (T : Tree → Prop) (text : String) : Prop :=
  ∃ t, T t ∧ ∃ j : Journal, (Render.exec (r.visit false t) j).1 = .ok text ∨
    ∃ slot : Slot, (Render.exec (r.cast? false slot t) j).1 = .ok (some text)

/-- A renderer that writes some nodes only. -/
noncomputable def only (r : Renderer) (T : Tree → Prop) : Renderer :=
  { r with visit := fun b t => open Classical in if T t then r.visit b t else .malformed t }

section Only

variable {r : Renderer} {T : Tree → Prop} {t : Tree} {b : Bool}

theorem visit_only (h : T t) : (r.only T).visit b t = r.visit b t := if_pos h

theorem visit_only_of_not (h : ¬ T t) : (r.only T).visit b t = .malformed t := if_neg h

theorem castSigned_only (hT : ∀ t, T t → ∀ c ∈ t.children, T c) {view : Signed}
    (hview : Signed.Views t view) (h : T t) (type : ValueType) :
    (r.only T).castSigned b type t view = r.castSigned b type t view := by
  induction hview with
  | literal => rfl
  | @signed t operand passed id i span sign view hpasses _ ih =>
    have hcore : T (.node id .factor span [.leaf i sign, operand]) := by
      clear ih
      generalize Tree.node id .factor span [.leaf i sign, operand] = core at hpasses
      induction hpasses with
      | here => exact h
      | pass _ hchildren _ ih => exact ih (hT _ h _ (by rw [hchildren]; exact .head _))
    have hoperand : T operand := hT _ hcore _ (.tail _ (.head _))
    simp only [castSigned, ih hoperand]
  | other => simp only [castSigned, visit_only h]

theorem cast?_only (hT : ∀ t, T t → ∀ c ∈ t.children, T c) (h : T t) (slot : Slot) :
    (r.only T).cast? b slot t = r.cast? b slot t := by
  simp only [cast?, castTo, visit_only h, castSigned_only hT (Signed.views_ofTree t) h]

theorem numericValue_only : (r.only T).numericValue t = r.numericValue t := by
  have hvalue : ∀ view, (r.only T).signedValue t view = r.signedValue t view := by
    intro view
    induction view generalizing t with
    | literal passed core text => rfl
    | signed passed sign operand view ih => simp only [signedValue, ih]
    | other passed => rfl
  exact hvalue _

end Only

theorem plainDocument_withoutHelpers (target : Target) (source : Source) (n : Nat) (t : Tree)
    (entries : List Tree) : (within target source n).plainDocument t entries =
      (within target.withoutHelpers source n).plainDocument t entries := by
  calc (within target source n).plainDocument t entries
      = (within target source n).plainly.plainDocument t entries := rfl
    _ = (within target.withoutHelpers source n).plainly.plainDocument t entries := by
        rw [plainly_within]
    _ = (within target.withoutHelpers source n).plainDocument t entries := rfl

theorem cast?_withoutHelpers (target : Target) (source : Source) (n : Nat) (slot : Slot)
    (t : Tree) : (within target source n).cast? false slot t =
      (within target.withoutHelpers source n).cast? false slot t := by
  rw [← cast?_plainly, plainly_within, cast?_plainly]

variable {r : Renderer} {entries : List (Tree × Shape)} {j j' : Journal} {text : String}

theorem gives_of_query?_eq_some
    (h : Render.exec (r.query? entries) j = (.ok (some text), j')) :
    ∃ (helpers : Helpers) (call : Call), r.target.helpers = some helpers ∧
      Build.Gives (Builder.query ⟨r, helpers⟩ entries) j call j' ∧ call.write r.target = text := by
  cases hhelpers : r.target.helpers with
  | none =>
    unfold query? at h
    rw [hhelpers] at h
    cases h
  | some helpers =>
    by_cases hentries : entries = []
    · unfold query? at h
      simp only [hhelpers, hentries] at h
      cases h
    · rw [exec_query? hhelpers hentries] at h
      refine ⟨helpers, ?_⟩
      rcases hrun : Render.exec (Builder.query ⟨r, helpers⟩ entries).run j with
        ⟨fault | (reason | call), k⟩
      · rw [hrun] at h; cases h
      · rw [hrun] at h; cases h
      · rw [hrun] at h
        cases h
        exact ⟨call, rfl, hrun, rfl⟩

end Renderer

namespace Builder

open Build (Quiet Gives)

variable {T : Tree → Prop} (target : Target) (source : Source) (n : Nat) (helpers : Helpers) (t : Tree)

/-- Where a builder gives a result, one that writes the nodes of some kind only gives the same. -/
theorem related_only (r : Renderer) (hT : ∀ t, T t → ∀ c ∈ t.children, T c) :
    Related ⟨r, helpers⟩ ⟨r.only T, helpers⟩ (fun t t' => t = t' ∧ T t)
      fun (α : Type) (m m' : Build α) => ∀ j a j', Gives m j a j' → Gives m' j a j' where
  helpers := rfl
  texts := ⟨fun h => h.1 ▸ rfl, fun h => h.1 ▸ rfl, fun h => h.1 ▸ rfl⟩
  congruence :=
    { pure := fun _ _ _ _ h => h
      bind := fun hx hf j c j' h => by
        obtain ⟨a, k, ha, hc⟩ := Build.gives_bind.1 h
        exact Build.gives_bind.2 ⟨a, k, hx j a k ha, hf a k c j' hc⟩ }
  refuse _ _ _ _ _ h := absurd h Build.not_gives_refuse
  call _ _ _ _ _ _ h := h
  list _ _ _ _ h := h
  plain {t _} h j a j' hgives := by
    obtain ⟨rfl, ht⟩ := h
    have heq : plain ⟨r.only T, helpers⟩ t = plain ⟨r, helpers⟩ t := by
      rw [plain, Renderer.plain, visit_only ht]
      rfl
    rwa [heq]
  string {t _} h j a j' hgives := by
    obtain ⟨rfl, ht⟩ := h
    have heq : string ⟨r.only T, helpers⟩ t = string ⟨r, helpers⟩ t := by
      rw [string, plain, Renderer.plain, visit_only ht]
      rfl
    rwa [heq]
  numeric {type t _} _ h j a j' hgives := by
    obtain ⟨rfl, ht⟩ := h
    have heq : numeric ⟨r.only T, helpers⟩ type t = numeric ⟨r, helpers⟩ type t := by
      rw [numeric, cast?_only hT ht]
      rfl
    rwa [heq]
  number {t _} h j a j' hgives := by
    obtain ⟨rfl, ht⟩ := h
    have heq : number ⟨r.only T, helpers⟩ t = number ⟨r, helpers⟩ t := by
      rw [number, plain, Renderer.plain, visit_only ht, numericValue_only]
      rfl
    rwa [heq]
  shown _ _ _ _ h := h

theorem quiet_plain : Quiet
    (Call.IsText ((within target.withoutHelpers source n).WritesPlainly T))
    (plain ⟨(within target source n).only T, helpers⟩ t) := by
  by_cases ht : T t
  · rw [plain, Renderer.plain, visit_only ht]
    refine .bind (.lift (silent_visit target source n t)) fun text ⟨j, h⟩ => ?_
    change (Render.exec ((within target source n).visit false t) j).1 = .ok text at h
    rw [visit_withoutHelpers] at h
    exact .pure ⟨text, ⟨t, ht, j, .inl h⟩, rfl⟩
  · intro j j' call h
    rw [plain, Renderer.plain, visit_only_of_not ht] at h
    cases h

theorem quiet_typeOf : Quiet (fun _ => True) (liftM (Render.typeOf t) : Build ValueType) :=
  .mono (.lift (Render.silent_typeOf t)) fun _ _ => trivial

/-- A builder over a renderer for some nodes writes these as a renderer without helpers does, and
records nothing in doing so. -/
theorem writes_only (hT : ∀ t, T t → ∀ c ∈ t.children, T c) :
    Writes ⟨(within target source n).only T, helpers⟩
      ((within target.withoutHelpers source n).WritesPlainly T) where
  plain := quiet_plain target source n helpers
  string t := by
    refine .bind (quiet_plain target source n helpers t) fun call hcall =>
      .bind (quiet_typeOf t) fun type _ => ?_
    split
    · exact .pure hcall
    · exact .refuse _
  numeric type t := by
    by_cases ht : T t
    · rw [numeric, cast?_only hT ht]
      refine .bind (.lift (silent_cast? target source n _ t)) fun text? ⟨j, h⟩ => ?_
      cases text? with
      | some text =>
        rw [cast?_withoutHelpers] at h
        exact .pure ⟨text, ⟨t, ht, j, .inr ⟨_, h⟩⟩, rfl⟩
      | none => exact .bind (quiet_typeOf t) fun _ _ => .refuse _
    · intro j j' call h
      rw [numeric, cast?, visit_only_of_not ht] at h
      cases h
  number t := by
    refine .bind (.bind (quiet_plain target source n helpers t) fun _ _ => .pure trivial)
      fun _ (_ : True) => .ofSilent (Render.Silent.tryCatch
        (Render.Silent.sequential.map _ ?_) ?_)
    · rw [numericValue_only]
      exact silent_numericValue target source n t
    · intro fault
      cases fault with
      | failure f =>
        dsimp only
        split
        · exact fun _ _ => rfl
        · exact fun _ _ => rfl
      | _ => exact fun _ _ => rfl

/-- What building a query gives, it records, and all texts in it are written of its nodes, as on the
target without its helpers. -/
theorem balanced_of_gives (hT : ∀ t, T t → ∀ c ∈ t.children, T c) {entries : List (Tree × Shape)}
    (hentries : Shape.EntriesAll T entries) {call : Call} {j j' : Journal}
    (h : Gives (query ⟨within target source n, helpers⟩ entries) j call j') :
    j.Records call.helpers j' ∧
      ∀ text ∈ call.texts, (within target.withoutHelpers source n).WritesPlainly T text := by
  have hgives := (related_only helpers (within target source n) hT).query hentries.both j call j' h
  obtain ⟨hs, hrecords, hbalanced⟩ :=
    accounts_query (writes_only target source n helpers hT) entries j j' call hgives
  have hhelpers : call.helpers = hs := (List.append_nil _).symm.trans hbalanced.helpers
  refine ⟨hhelpers ▸ hrecords, fun text htext => hbalanced.texts text ?_⟩
  exact List.mem_append_left [] htext

end Builder

/-- All nodes in the entries of a document stand below it. -/
theorem Shape.Sees.entriesAll_inner {top t : Tree} {s : Shape} (h : Sees top t s)
    (hof : t.isOf .objectLiteral) : EntriesAll t.Inner s.entries := by
  cases h with
  | document listing =>
    exact EntriesAll.of_both _ (rel_entriesOf
      (Tree.Correspondence.of_children fun _ hs _ hc => Tree.Inner.step hs hc) _
      (List.forall₂_same.2 fun e he => ⟨rfl, .step (.child (.head _)) he⟩))
  | pass hcategory =>
    obtain rfl := Tree.rule_of_isOf hof
    cases hcategory
  | scalar | array | empty => trivial

/-- In the plain style helpers play no part. For every node and from every journal a renderer does
the same as one for the target without its helpers: it gives the same text or fault and leaves the
same journal, and under the codes of the families it leaves all as it was. So does a document that
is written as it is, and every text that stands in a query is one that the renderer without helpers
writes of a node in the entries of the query. -/
theorem plain_visit_ignores_helpers (target : Target) (source : Source) (n : Nat) (t : Tree) :
    (within target source n).visit false t = (within target.withoutHelpers source n).visit false t ∧
    (within target source n).plain t = (within target.withoutHelpers source n).plain t ∧
    (∀ (j : Journal) (family : Family),
      (Render.exec ((within target source n).visit false t) j).2.notes.usage.get? family.code =
        j.notes.usage.get? family.code) ∧
    (∀ entries : List Tree, (within target source n).plainDocument t entries =
      (within target.withoutHelpers source n).plainDocument t entries) ∧
    ∀ (T : Tree → Prop) (helpers : Helpers) (entries : List (Tree × Shape)) (j j' : Journal)
      (call : Call), (∀ t, T t → ∀ c ∈ t.children, T c) → Shape.EntriesAll T entries →
        Build.Gives (Builder.query ⟨within target source n, helpers⟩ entries) j call j' →
          ∀ text ∈ call.texts, (within target.withoutHelpers source n).WritesPlainly T text := by
  refine ⟨visit_withoutHelpers t target source n,
    visit_withoutHelpers t target source n, silent_visit target source n t,
    plainDocument_withoutHelpers target source n t, ?_⟩
  exact fun T helpers entries j j' call hT hentries h =>
    (Builder.balanced_of_gives target source n helpers hT hentries h).2

/-- A document that is written as a query was built as a tree of calls, whose text it is. Under the
code of each family, the names of the helpers of this family that are called in the tree are recorded
and no others, in post-order and each as often as it is called. All else in the text is written of
nodes below the document, as on the target without helpers. -/
theorem query_records_its_helpers (target : Target) (source : Source) (n : Nat) {t : Tree}
    (ht : t.isOf .objectLiteral) (j j' : Journal) (text : String)
    (h : Render.exec ((within target source n).query? (Shape.ofTree t).entries) j =
      (.ok (some text), j')) :
    ∃ (helpers : Helpers) (call : Call), target.helpers = some helpers ∧
      Build.Gives (Builder.query ⟨within target source n, helpers⟩ (Shape.ofTree t).entries) j call
        j' ∧
      call.write target = text ∧
      (∀ family : Family, j'.notes.usage.names family.code = j.notes.usage.names family.code ++
        (call.helpers.filter (·.family = family)).map (·.name)) ∧
      ∀ leaf ∈ call.texts, (within target.withoutHelpers source n).WritesPlainly t.Inner leaf := by
  obtain ⟨helpers, call, hhelpers, hgives, htext⟩ := gives_of_query?_eq_some h
  rw [target_within] at hhelpers htext
  obtain ⟨hrecords, htexts⟩ := Builder.balanced_of_gives target source n helpers
    (fun _ hs _ hc => hs.step hc) ((Shape.sees_ofTree _).entriesAll_inner ht) hgives
  exact ⟨helpers, call, hhelpers, hgives, htext, hrecords, htexts⟩

/-- The helpers of the stages of a pipeline come before the facet that holds it. -/
theorem query_records_helpers_of_facet :
    ∃ t ∈ ((parse "\x7b'$facet': \x7b'a': [\x7b'$match': \x7b'x': 1\x7d\x7d]\x7d\x7d"
        ).toOption.map Tree.nodes).getD [],
      ∃ j', Render.exec ((within .java default t.height).query? (Shape.ofTree t).entries) {} =
        (.ok (some "facet(new Facet(\"a\", Arrays.asList(match(eq(\"x\", 1L)))))"), j') ∧
      ∃ call : Call,
        call.write .java = "facet(new Facet(\"a\", Arrays.asList(match(eq(\"x\", 1L)))))" ∧
        call.helpers.map (·.name) = ["eq", "match", "Facet", "facet"] ∧
        ∀ family : Family, j'.notes.usage.names family.code =
          (call.helpers.filter (·.family = family)).map (·.name) := by
  have h : ∃ t ∈ ((parse "\x7b'$facet': \x7b'a': [\x7b'$match': \x7b'x': 1\x7d\x7d]\x7d\x7d"
        ).toOption.map Tree.nodes).getD [], t.isOf .objectLiteral ∧
      (Render.exec ((within .java default t.height).query? (Shape.ofTree t).entries) {}).1 =
        .ok (some "facet(new Facet(\"a\", Arrays.asList(match(eq(\"x\", 1L)))))") ∧
      ((Render.exec (Builder.query ⟨within .java default t.height, Java.helpers⟩
        (Shape.ofTree t).entries).run {}).1.toOption.bind Except.toOption).map
          (·.helpers.map (·.name)) = some ["eq", "match", "Facet", "facet"] := by
    decide +kernel
  obtain ⟨t, ht, hof, htext, hnames⟩ := h
  obtain ⟨helpers, call, hhelpers, hgives, hwrite, hrecords, -⟩ :=
    query_records_its_helpers .java default t.height hof {} _ _ (Prod.ext htext rfl)
  obtain rfl : Java.helpers = helpers := Option.some.inj hhelpers
  rw [hgives] at hnames
  exact ⟨t, ht, _, Prod.ext htext rfl, call, hwrite, Option.some.inj hnames, hrecords⟩

end QueryScribe
