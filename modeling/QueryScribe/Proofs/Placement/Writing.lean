import QueryScribe.Proofs.Compiling
import QueryScribe.Proofs.Placement.Tree

/-!
# A tree is written alike wherever it stands

Neither the places of its nodes nor the number from which they are counted make a difference to what
is written of a tree. Two trees are shifted if they have the same form and tokens of the same texts,
and the numbers of the second are those of the first and a fixed number on (`Tree.Shifted`). Two
actions do alike if, from notes that say the same under shifted numbers, they end in results that
correspond or in faults of one kind, and leave such notes (`Render.Alike`). What was logged does not
count, and neither do the places and texts that faults tell.

Doing alike is kept by sequencing and holds of the steps from which all actions are built, so it holds
of whole trees (`alike_render`). Two sources that are read as one tree apart from places compile to the
same (`compile_eq_of_unplaced`).
-/

namespace QueryScribe

variable {d : Nat}

/-! ## Shifted trees and notes -/

/-- Trees of one form, with the numbers of the second so many on. -/
inductive Tree.Shifted (d : Nat) : Tree → Tree → Prop
  | leaf {i : Nat} {token token' : Token} : token'.text = token.text →
    Shifted d (leaf i token) (leaf (i + d) token')
  | node {i : Nat} {rule : Rule} {span span' : Span} {cs cs' : List Tree} :
    List.Forall₂ (Shifted d) cs cs' → Shifted d (node i rule span cs) (node (i + d) rule span' cs')

namespace Tree.Shifted

theorem correspondence (d : Nat) : Correspondence (Shifted d) where
  leaf h := by
    cases h with
    | leaf htext => exact ⟨_, _, rfl, htext⟩
  node h := by
    cases h with
    | node hcs => exact ⟨_, _, _, rfl, hcs⟩

theorem id_eq {t t' : Tree} (h : Shifted d t t') : t'.id = t.id + d := by
  cases h with
  | leaf => rfl
  | node => rfl

mutual

theorem of_unplaced : (t t' : Tree) → t'.unplaced = t.unplaced → Shifted 0 t t'
  | .leaf _ token, .leaf _ token', h => by
    simp only [unplaced_leaf, Tree.leaf.injEq] at h
    obtain ⟨rfl, htoken⟩ := h
    have htext : token'.unplaced.text = token.unplaced.text := congrArg Token.text htoken
    exact .leaf htext
  | .node _ _ _ cs, .node _ _ _ cs', h => by
    simp only [unplaced_node, Tree.node.injEq, true_and] at h
    obtain ⟨rfl, rfl, hcs⟩ := h
    exact .node (of_map_unplaced cs cs' hcs)
  | .leaf _ _, .node _ _ _ _, h => by simp at h
  | .node _ _ _ _, .leaf _ _, h => by simp at h

theorem of_map_unplaced : (ts ts' : List Tree) → ts'.map Tree.unplaced = ts.map Tree.unplaced →
    List.Forall₂ (Shifted 0) ts ts'
  | [], [], _ => .nil
  | t :: ts, t' :: ts', h => by
    obtain ⟨ht, hts⟩ := List.cons.inj h
    exact .cons (of_unplaced t t' ht) (of_map_unplaced ts ts' hts)
  | [], _ :: _, h => by simp at h
  | _ :: _, [], h => by simp at h

end

end Tree.Shifted

/-- Notes with the same uses that say under shifted numbers what the others say. -/
structure Notes.Shifted (d : Nat) (n n' : Notes) : Prop where
  usage : n'.usage = n.usage
  mark : ∀ i, n'.mark (i + d) = n.mark i

namespace Notes.Shifted

variable {n n' : Notes} (h : Shifted d n n') {t t' : Tree} (ht : Tree.Shifted d t t')

include h ht

theorem setType (type : ValueType) : Shifted d (n.setType t type) (n'.setType t' type) where
  usage := h.usage
  mark i := by simp only [mark_setType, ht.id_eq, h.mark, Nat.add_right_cancel_iff]

theorem cast (type own : ValueType) : Shifted d (n.cast t type own) (n'.cast t' type own) where
  usage := h.usage
  mark i := by simp only [mark_cast, ht.id_eq, h.mark, Nat.add_right_cancel_iff]

omit ht in
theorem type?_eq : {t t' : Tree} → Tree.Shifted d t t' → n'.type? t' = n.type? t
  | .leaf i _, _, .leaf _ => congrArg Mark.type (h.mark i)
  | .node i _ _ [], _, .node .nil => congrArg Mark.type (h.mark i)
  | .node i _ _ [_], _, .node (.cons hc .nil) => by
    have htype : n'.types[i + d]? = n.types[i]? := congrArg Mark.type (h.mark i)
    simp only [type?, htype, type?_eq hc]
  | .node i _ _ (_ :: _ :: _), _, .node (.cons _ (.cons _ _)) => congrArg Mark.type (h.mark i)

theorem ownType?_eq : n'.ownType? t' = n.ownType? t := by
  have hown : n'.ownTypes[t.id + d]? = n.ownTypes[t.id]? := congrArg Mark.own (h.mark t.id)
  rw [ownType?, ownType?, ht.id_eq, hown, h.type?_eq ht]

end Notes.Shifted

/-! ## Actions that do alike -/

namespace Render

variable {α β γ δ : Type} {R : α → β → Prop} {S : γ → δ → Prop}

/-- Two actions that do alike from shifted notes. -/
def Alike (d : Nat) (R : α → β → Prop) (m : Render α) (m' : Render β) : Prop :=
  ∀ j j' : Journal, Notes.Shifted d j.notes j'.notes →
    Except.Alike Fault.Alike R (exec m j).1 (exec m' j').1 ∧
      Notes.Shifted d (exec m j).2.notes (exec m' j').2.notes

namespace Alike

variable {m : Render α} {m' : Render β} {f : α → Render γ} {f' : β → Render δ}

theorem pure {a : α} {b : β} (h : R a b) : Alike d R (pure a) (pure b) :=
  fun _ _ hnotes => ⟨.ok h, hnotes⟩

theorem throw {e e' : Fault} (h : e.Alike e') : Alike d R (throw e : Render α) (throw e') :=
  fun _ _ hnotes => ⟨.error h, hnotes⟩

theorem bind (hm : Alike d R m m') (hf : ∀ a b, R a b → Alike d S (f a) (f' b)) :
    Alike d S (m >>= f) (m' >>= f') := by
  intro j j' hnotes
  obtain ⟨hresult, hafter⟩ := hm j j' hnotes
  rw [exec_bind, exec_bind]
  rcases hx : exec m j with ⟨x, k⟩
  rcases hx' : exec m' j' with ⟨x', k'⟩
  rw [hx, hx'] at hresult hafter
  cases hresult with
  | ok h => exact hf _ _ h k k' hafter
  | error h => exact ⟨.error h, hafter⟩

theorem tryCatch {h : Fault → Render α} {h' : Fault → Render β} (hm : Alike d R m m')
    (hh : ∀ {e e' : Fault}, e.Alike e' → Alike d R (h e) (h' e')) :
    Alike d R (tryCatch m h) (MonadExcept.tryCatch m' h') := by
  intro j j' hnotes
  obtain ⟨hresult, hafter⟩ := hm j j' hnotes
  rw [exec_tryCatch, exec_tryCatch]
  rcases hx : exec m j with ⟨x, k⟩
  rcases hx' : exec m' j' with ⟨x', k'⟩
  rw [hx, hx'] at hresult hafter
  cases hresult with
  | ok h => exact ⟨.ok h, hafter⟩
  | error h => exact hh h k k' hafter

theorem congruence (d : Nat) : Congruence fun (α : Type) (m m' : Render α) => Alike d Eq m m' where
  pure _ := pure rfl
  bind hx hf := bind hx fun a _ h => h ▸ hf a

theorem note {f f' : Notes → Notes} (h : ∀ n n', n.Shifted d n' → (f n).Shifted d (f' n')) :
    Alike d Eq (note f) (Render.note f') :=
  fun _ _ hnotes => ⟨.ok rfl, h _ _ hnotes⟩

theorem notes : Alike d (Notes.Shifted d) notes Render.notes := fun _ _ hnotes => ⟨.ok hnotes, hnotes⟩

theorem touch (code : Int) : Alike d Eq (touch code) (Render.touch code) :=
  note fun _ _ h => ⟨congrArg (Usage.touch · code) h.usage, h.mark⟩

theorem log (e e' : Event) : Alike d Eq (log e) (Render.log e') :=
  fun _ _ hnotes => ⟨.ok rfl, hnotes⟩

theorem typeOf {t t' : Tree} (ht : Tree.Shifted d t t') : Alike d Eq (typeOf t) (Render.typeOf t') := by
  refine bind notes fun n n' h => ?_
  rw [h.type?_eq ht]
  cases n.type? t with
  | some type => exact pure rfl
  | none => exact throw (.failure rfl)

theorem ownTypeOf {t t' : Tree} (ht : Tree.Shifted d t t') :
    Alike d Eq (ownTypeOf t) (Render.ownTypeOf t') := by
  refine bind notes fun n n' h => ?_
  rw [h.ownType?_eq ht]
  cases n.ownType? t with
  | some type => exact pure rfl
  | none => exact throw (.failure rfl)

end Alike

end Render

namespace Build

variable {α : Type}

/-- Two building actions that do alike. The reasons of refusals do not count. -/
def Alike (d : Nat) (m m' : Build α) : Prop :=
  Render.Alike d (Except.Alike (fun _ _ => True) Eq) m.run m'.run

namespace Alike

theorem refuse (reason reason' : Refusal) :
    Alike d (Builder.refuse reason : Build α) (Builder.refuse reason') :=
  Render.Alike.pure (.error trivial)

theorem congruence (d : Nat) : Congruence fun (α : Type) (m m' : Build α) => Alike d m m' where
  pure _ := Render.Alike.pure (.ok rfl)
  bind hx hf := by
    unfold Alike
    rw [ExceptT.run_bind, ExceptT.run_bind]
    refine Render.Alike.bind hx fun a a' h => ?_
    cases h with
    | ok h => exact h ▸ hf _
    | error => exact Render.Alike.pure (.error trivial)

theorem lift {m m' : Render α} (hm : Render.Alike d Eq m m') :
    Alike d (liftM m : Build α) (liftM m' : Build α) := by
  have hrun (m : Render α) : (liftM m : Build α).run = Except.ok <$> m := rfl
  unfold Alike
  rw [hrun, hrun, map_eq_pure_bind, map_eq_pure_bind]
  exact Render.Alike.bind hm fun a _ h => Render.Alike.pure (.ok h)

end Alike

end Build

/-! ## Renderers that write alike -/

namespace Renderer

/-- Two renderers for one target that write shifted trees alike. -/
structure Alike (d : Nat) (r r' : Renderer) : Prop where
  target : r'.target = r.target
  names : r'.source.names = r.source.names
  visit : ∀ (b : Bool) {t t' : Tree}, Tree.Shifted d t t' →
    Render.Alike d Eq (r.visit b t) (r'.visit b t')

variable {r r' : Renderer} (h : r.Alike d r')

include h

theorem Alike.plainly :
    r.Related r' false (Tree.Shifted d) fun (α : Type) (m m' : Render α) => Render.Alike d Eq m m' where
  target := h.target
  names := h.names
  trees := Tree.Shifted.correspondence d
  congruence := Render.Alike.congruence d
  throw := .throw
  tryCatch := .tryCatch
  typeOf := .typeOf
  ownTypeOf := .ownTypeOf
  setType ht type := .note fun _ _ h => h.setType ht type
  cast ht type own := .note fun _ _ h => h.cast ht type own
  touch := .touch
  log := .log
  visit := h.visit false
  plain := h.visit false
  query? h := nomatch h

/-- What is built over renderers that write alike is built alike. -/
theorem Alike.builders (helpers : Helpers) :
    Builder.Related ⟨r, helpers⟩ ⟨r', helpers⟩ (Tree.Shifted d)
      fun (α : Type) (m m' : Build α) => Build.Alike d m m' := by
  have hcongruence := Build.Alike.congruence d
  have hplain {t t' : Tree} (ht : Tree.Shifted d t t') :
      Build.Alike d (Builder.plain ⟨r, helpers⟩ t) (Builder.plain ⟨r', helpers⟩ t') :=
    hcongruence.bind (.lift (h.visit false ht)) fun _ => hcongruence.pure _
  exact
    { helpers := rfl
      texts := (Tree.Shifted.correspondence d).sameTexts
      congruence := hcongruence
      refuse := .refuse
      call := fun family key args => by
        unfold Builder.call
        dsimp only
        cases helpers.find? family key with
        | none => exact .refuse _ _
        | some helper =>
          have hadd : ∀ n n' : Notes, n.Shifted d n' →
              (n.add helper.family.code helper.name).Shifted d (n'.add helper.family.code helper.name) :=
            fun _ _ h => ⟨congrArg (Usage.add · _ _) h.usage, h.mark⟩
          exact hcongruence.bind (.lift (.note hadd)) fun _ => hcongruence.pure _
      list := fun items => hcongruence.bind (.lift (.touch _)) fun _ => hcongruence.pure _
      plain := hplain
      string := fun ht => by
        refine hcongruence.bind (hplain ht) fun call =>
          hcongruence.bind (.lift (.typeOf ht)) fun type => ?_
        split
        · exact hcongruence.pure _
        · exact .refuse _ _
      numeric := fun {type _ _} _ ht => by
        refine hcongruence.bind (.lift (h.plainly.cast? ht _)) fun text? => ?_
        cases text? with
        | some text => exact hcongruence.pure _
        | none => exact hcongruence.bind (.lift (.typeOf ht)) fun _ => .refuse _ _
      number := fun ht => by
        refine hcongruence.bind (hcongruence.map _ (hplain ht)) fun _ => ?_
        refine Render.Alike.tryCatch ?_ fun he => ?_
        · rw [map_eq_pure_bind, map_eq_pure_bind]
          exact (h.plainly.numericValue ht).bind fun _ _ heq => .pure (.ok heq)
        · cases he with
          | failure hkind =>
            dsimp only
            rw [hkind]
            split
            · exact .pure (.error trivial)
            · exact .throw (.failure hkind)
          | conversion f g => exact .throw (.conversion f g)
          | unknownType name name' => exact .throw (.unknownType name name')
          | malformed label label' => exact .throw (.malformed label label')
      shown := fun n => .lift (h.plainly.ofConversion n.write) }

theorem Alike.query? {entries entries' : List (Tree × Shape)}
    (hentries : List.Forall₂ (Prod.RProd (Tree.Shifted d) (Shape.Both (Tree.Shifted d))) entries entries') :
    Render.Alike d Eq (r.query? entries) (r'.query? entries') := by
  have hempty : entries'.isEmpty = entries.isEmpty := by cases hentries <;> rfl
  unfold Renderer.query?
  rw [h.target, hempty]
  cases r.target.helpers with
  | none => exact .pure rfl
  | some helpers =>
    dsimp only
    split
    · exact .pure rfl
    · refine Render.Alike.notes.bind fun saved saved' hsaved => ?_
      refine Render.Alike.bind ((h.builders helpers).query hentries) fun result result' hresult => ?_
      cases hresult with
      | ok heq => exact heq ▸ .pure rfl
      | error =>
        exact (Render.Alike.log _ _).bind fun _ _ _ =>
          (Render.Alike.note fun _ _ _ => hsaved).bind fun _ _ _ => .pure rfl

theorem Alike.related (b : Bool) :
    r.Related r' b (Tree.Shifted d) fun (α : Type) (m m' : Render α) => Render.Alike d Eq m m' :=
  { h.plainly with
    visit := h.visit b
    query? := fun _ {_ _} hentries => h.query? hentries }

omit h in
theorem alike_within (target : Target) {source source' : Source} (h : source'.names = source.names)
    (n : Nat) : (within target source n).Alike d (within target source' n) := by
  induction n with
  | zero => exact ⟨rfl, h, fun _ {_ _} _ => .throw (.malformed _ _)⟩
  | succ n ih =>
    refine ⟨rfl, h, fun b {t t'} ht => ?_⟩
    rw [visit_within_succ, visit_within_succ, (Tree.Shifted.correspondence d).height ht]
    split
    · exact ih.visit b ht
    · exact (ih.related b).step ht

end Renderer

theorem alike_render (target : Target) {source source' : Source}
    (hnames : source'.names = source.names) (b : Bool) {t t' : Tree} (h : Tree.Shifted d t t') :
    Render.Alike d Eq (render target source b t) (render target source' b t') := by
  unfold render Renderer.forTree
  rw [(Tree.Shifted.correspondence d).height h]
  exact (Renderer.alike_within target hnames t.height).visit b h

open Render (exec) in
/-- Two sources that are read as one tree apart from places compile to the same. -/
theorem compile_eq_of_unplaced {target : Target} {options : Options} {source source' : String}
    {root root' : Tree} {output : Output} (hlimit : options.limit = none)
    (hparse : parse source = .ok root) (hparse' : parse source' = .ok root')
    (h : root'.unplaced = root.unplaced) (houtput : compile target options source = .ok output) :
    compile target options source' = .ok output := by
  have hexceeded (n : Nat) : options.exceeded n = none := by simp [Options.exceeded, hlimit]
  rw [compile_of_parse (hexceeded _) hparse] at houtput
  rw [compile_of_parse (hexceeded _) hparse']
  have hnames : (options.source source').names = (options.source source).names := by
    rw [Options.source, Options.source]
  obtain ⟨hresult, hnotes⟩ := alike_render target hnames options.idiomatic
    (Tree.Shifted.of_unplaced root root' h) {} {} ⟨rfl, fun _ => rfl⟩
  revert houtput hresult hnotes
  rcases exec (render target (options.source source) options.idiomatic root) {} with ⟨x, j⟩
  rcases exec (render target (options.source source') options.idiomatic root') {} with ⟨x', j'⟩
  dsimp only
  intro houtput hresult hnotes
  rw [← houtput, hnotes.usage]
  cases hresult with
  | error => cases houtput
  | ok heq => rw [heq]

end QueryScribe
