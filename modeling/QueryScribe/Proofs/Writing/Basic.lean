import QueryScribe.Proofs.Locality.Visit
import QueryScribe.Proofs.Numerals

/-!
# What it means to write a node

`Renderer.Writes` is the contract of writing a node: from coherent notes it ends in a text, and then
the node can be written, but for what queries leave out, and all nodes on its spine have types; or it
ends in a fault that may be expected, and only if the node was not ready to be written. One contract
thus says when writing succeeds, what success tells of the tree, and which faults there are.

The faults that an action may end in are a parameter throughout. `Allows` says that they take in all
expected faults unless some condition holds; a part is written under the condition that the part is
ready, which follows from that of the whole (`Allows.mono`).
-/

namespace QueryScribe

open Render (Ends)

/-! ## Faults -/

/-- A node with too many digits: a number with an integer part that has them, or a string that has them
where an integer is asked for. -/
def Tree.IsLong (names : CharacterNames) (t : Tree) : Prop :=
  (∃ n, t.number? = some n ∧ n.IsLong) ∨ ∃ text, t.stringValue? names = some text ∧
    Literal.int64Text text = .error (.conversion .tooManyDigits)

/-- The faults that may be expected: failures of the source, which are never internal, numbers that are
too large or have too many digits, and what a target gives for a literal. Octal literals are written as
they stand in the source. -/
inductive Expected (setting : Setting) (root : Tree) : Fault → Prop
  | failure {f : Failure} (h : f.kind ≠ .internal) : Expected setting root (.failure f)
  | large {s : Tree} (hs : s ∈ root.nodes) (h : s.IsLarge) :
    Expected setting root (.conversion .overflow)
  | long {s : Tree} (hs : s ∈ root.nodes) (h : s.IsLong setting.names) :
    Expected setting root (.conversion .tooManyDigits)
  | literal {type : ValueType} {text : String} {fault : Fault}
    (h : setting.target.writeLiteral type text = .error fault)
    (hoctal : type = .octal → ∃ s ∈ root.nodes, s.isOf .octLiteral ∧
      s.firstToken?.map (·.text) = some text) : Expected setting root fault

theorem Expected.of_evaluation {setting : Setting} {root : Tree} {cause : Cause}
    (h : cause.kind = .evaluation) : Expected setting root (.ofCause cause) :=
  .failure (by rw [Failure.kind, h]; decide)

/-- All expected faults are allowed, unless a condition holds. -/
def Allows (setting : Setting) (root : Tree) (E : Fault → Prop) (P : Prop) : Prop :=
  ∀ fault, Expected setting root fault → ¬ P → E fault

namespace Allows

variable {setting : Setting} {root : Tree} {E : Fault → Prop} {P P' : Prop} {I : Marks → Prop}

theorem mono (h : Allows setting root E P) (hP : P → P') : Allows setting root E P' :=
  fun fault hfault hP' => h fault hfault fun h => hP' (hP h)

theorem failure (h : Allows setting root E P) {f : Failure} (hf : f.kind ≠ .internal) (hP : ¬ P) :
    E (.failure f) :=
  h _ (.failure hf) hP

variable {α : Type} {j : Journal}

theorem fail {Q : α → Marks → Prop} (h : Allows setting root E P) (hj : I j.notes.mark) {cause : Cause}
    (hcause : cause.kind ≠ .internal) (hP : ¬ P) : Ends I E (Render.fail cause) j Q :=
  .throw hj (h.failure hcause hP)

theorem failAt {Q : α → Marks → Prop} {r : Renderer} {t : Tree} (h : Allows setting root E P)
    (hj : I j.notes.mark) {cause : Cause} (hcause : cause.kind ≠ .internal) (hP : ¬ P) :
    Ends I E (r.failAt t cause) j Q :=
  .throw hj (h.failure hcause hP)

theorem ofCause {e : Except Cause α} (h : Allows setting root E P) (hP : P → e.isOk)
    (hj : I j.notes.mark) (hcause : ∀ cause, e = .error cause → cause.kind = .evaluation) :
    Ends I E (Render.ofCause e) j fun a _ => e = .ok a := by
  refine .ofCause hj (fun cause he => h.failure ?_ fun hP' => ?_) fun a ha => ha
  · rw [Failure.kind, hcause cause he]
    decide
  · rw [he] at hP
    cases hP hP'

theorem ofFault {e : Except Fault α} (h : Allows setting root E P) (hP : P → e.isOk)
    (hj : I j.notes.mark) (hfault : ∀ fault, e = .error fault → Expected setting root fault) :
    Ends I E (Render.ofFault e) j fun a _ => e = .ok a := by
  refine .ofFault hj (fun fault he => h fault (hfault fault he) fun hP' => ?_) fun a ha => ha
  rw [he] at hP
  cases hP hP'

theorem literal {r : Renderer} {type : ValueType} {text : String} (h : Allows r.setting root E P)
    (hoctal : type = .octal → ∃ s ∈ root.nodes, s.isOf .octLiteral ∧
      s.firstToken?.map (·.text) = some text)
    (hP : P → (r.target.writeLiteral type text).isOk) (hj : I j.notes.mark) :
    Ends I E (r.literal type text) j fun _ _ => (r.target.writeLiteral type text).isOk :=
  (h.ofFault hP hj fun _ he => .literal he hoctal).imp fun _ _ _ hok => by rw [hok]; rfl

end Allows

/-! ## Nodes that are ready -/

/-- A number literal can be converted to the types that queries ask for. -/
def Tree.Converts (target : Target) (t : Tree) : Prop :=
  ∀ token, t.firstToken? = some token → ∃ value, Literal.number token.text t.natural = .ok value ∧
    value.toInt.isOk ∧ ∀ type, type = .integer ∨ type = .decimal →
      ∃ written, Literal.canonical value type = .ok written ∧ (target.writeLiteral type written).isOk

/-- A number with signs can be converted and shown. -/
def Tree.Convertible (target : Target) (t : Tree) : Prop :=
  (∀ s, t.Spine s → s.rule?.any Rule.isNumber → s.Converts target) ∧
    ∀ value, t.number? = some value → value.write.isOk

/-- A node is ready to be written: it can be written plainly, and where documents may become queries
the numbers that these convert can be converted. -/
structure Ready (setting : Setting) (idiomatic : Bool) (t : Tree) : Prop where
  marked : setting.target.Marked
  writable : Tree.Writable setting t False t
  converts : setting.Queries idiomatic → ∀ d ∈ t.nodes, d.isOf .objectLiteral →
    ∀ s, (Shape.ofTree d).Converts s → s.Convertible setting.target

theorem Ready.of_mem_nodes {setting : Setting} {b b' : Bool} {s t : Tree} (h : Ready setting b t)
    (hs : s ∈ t.nodes) (hcontainer : s.isContainer = false) (hb : b' → b) : Ready setting b' s where
  marked := h.marked
  writable := (h.writable.of_mem_nodes hs hcontainer).of_false
  converts hqueries d hd := h.converts ⟨hb hqueries.1, hqueries.2⟩ d (Tree.mem_nodes_trans hs hd)

theorem Ready.admitted {setting : Setting} {b : Bool} {t : Tree} (h : Ready setting b t) :
    t.Admitted setting := by
  obtain ⟨-, ⟨admitted, -⟩, -⟩ := h
  exact admitted And.left

/-! ## Nodes that are written -/

/-- What holds of a node after it was written: the nodes of its spine have types and are none that
are refused, and the node can be written but for what queries leave out. -/
structure Wrote (setting : Setting) (root : Tree) (idiomatic : Bool) (t : Tree) (n : Marks) : Prop where
  typed : ∀ s, t.Spine s → n.Typed s
  written : Tree.Written root t
  writable : setting.target.Marked → Tree.Writable setting root (setting.Queries idiomatic) t

namespace Wrote

variable {setting : Setting} {root t : Tree} {b b' : Bool} {n m : Marks} {I : Marks → Prop}

theorem after (h : Wrote setting root b t n) (hafter : Marks.After I n m) :
    Wrote setting root b t m :=
  ⟨fun s hs => (h.typed s hs).after hafter, h.written, h.writable⟩

theorem mono (h : Wrote setting root b' t n) (hb : b' → b) : Wrote setting root b t n := by
  exact ⟨h.typed, h.written, fun hmarked => (h.writable hmarked).mono fun h => ⟨hb h.1, h.2⟩⟩

/-- A node is written after its parts if nothing of itself stands against it. -/
theorem of_parts (hroot : root.Formed) (ht : t ∈ root.nodes) (hvisited : t.isVisited)
    (hadmitted : t.Admitted setting) (htyped : n.Typed t)
    (hparts : ∀ c ∈ t.parts, Wrote setting root b c n) : Wrote setting root b t n := by
  have hoperands : ∀ c ∈ t.operands, Wrote setting root b c n := fun c hc =>
    hparts c (hroot.mem_parts_of_mem_operands ht hvisited hadmitted.1 hc)
  refine ⟨fun s hs => ?_, fun s hs => ?_, fun hmarked => .intro (fun _ => hadmitted) fun c hc _ =>
    (hparts c hc).writable hmarked⟩
  · cases hs with
    | refl => exact htyped
    | step hc hs => exact (hoperands _ hc).typed s hs
  · cases hs with
    | refl => exact ⟨ht, hvisited, hadmitted.1⟩
    | step hc hs => exact (hoperands _ hc).written s hs

end Wrote

/-- The contract of an action that writes a node. -/
def Renderer.Writes (r : Renderer) (root : Tree) (b : Bool) (t : Tree) (m : Render String) : Prop :=
  ∀ (E : Fault → Prop) (j : Journal), Allows r.setting root E (Ready r.setting b t) →
    Coherent r.target root j.notes.mark →
      Ends (Coherent r.target root) E m j fun text n =>
        Wrote r.setting root b t n ∧ Spelled r.target t text

/-- A renderer writes a node as it should. -/
def Renderer.Visits (r : Renderer) (root : Tree) (b : Bool) (t : Tree) : Prop :=
  r.Writes root b t (r.visit b t)

/-- A node stands in a tree that was read, over a renderer that writes what is below it. -/
structure Renderer.Stands (r : Renderer) (root : Tree) (b : Bool) (t : Tree) : Prop where
  formed : root.Formed
  mem : t ∈ root.nodes
  below : ∀ s ∈ t.nodes, s.height < t.height → s.isVisited → ∀ b' : Bool, (b' → b) →
    r.Visits root b' s

/-- An action writes a node as it should, wherever the node stands. -/
def Renderer.Handles (r : Renderer) (root : Tree) (b : Bool) (f : Tree → Render String) (t : Tree) :
    Prop :=
  r.Stands root b t → r.Writes root b t (f t)

/-! ## Types of nodes -/

section Types

variable {target : Target} {root t c : Tree} {type : ValueType} {E : Fault → Prop} {j : Journal}
  {Q : Unit → Marks → Prop}

theorem Render.Ends.setType (hj : Coherent target root j.notes.mark) (hroot : root.Distinct)
    (ht : t ∈ root.nodes) (htype : Marks.Typed j.notes.mark t ∨ type = t.natural)
    (hQ : ∀ n, Marks.After (Coherent target root) j.notes.mark n → n.Typed t → Q () n) :
    Ends (Coherent target root) E (Render.setType t type) j Q := by
  have hmark : ∀ n : Notes, (n.setType t type).mark = fun i =>
      if i = t.id then (n.mark i).withType type else n.mark i :=
    fun n => funext fun i => Notes.mark_setType _ _ _ _
  have hafter : Marks.After (Coherent target root) j.notes.mark (j.notes.setType t type).mark := by
    rw [hmark]
    refine ⟨hj.setType hroot ht htype, fun i => ?_⟩
    split
    · exact Mark.kept_withType _ _
    · exact .refl _
  refine .note hafter (hQ _ hafter ?_) fun k hk => ?_
  · rw [hmark, Marks.Typed, if_pos rfl, Mark.withType]
    cases (j.notes.mark t.id).type <;> rfl
  · rw [hmark, hmark]
    exact hk.setType (hmark _ ▸ hafter.keeps)

theorem Render.Ends.ownNatural (hj : Coherent target root j.notes.mark) (ht : t ∈ root.nodes)
    (htyped : Marks.Typed j.notes.mark t) :
    Ends (Coherent target root) E (Render.ownTypeOf t) j fun own _ => own = t.natural :=
  .ownTypeOf hj htyped fun _ hown => (hj.fits t ht).own_eq hown

theorem Coherent.typed_or_eq_natural {n : Marks} (h : Coherent target root n) (ht : t ∈ root.nodes)
    (hcontainer : t.isContainer = false) (hlisting : t.isListing = false) (hc : c ∈ t.parts)
    (htype : (n c.id).type = some type) : n.Typed t ∨ type = c.natural := by
  cases hown : (n c.id).own with
  | some own => exact .inl (h.parts t ht hcontainer hlisting c hc (by rw [hown]; rfl))
  | none =>
    exact .inr ((h.fits c (Tree.mem_nodes_trans ht (Tree.mem_nodes_of_mem_parts hc))).eq_natural hown
      htype)

end Types

/-! ## Parts -/

namespace Renderer.Stands

variable {r : Renderer} {root t c : Tree} {b b' : Bool} {E : Fault → Prop} {j : Journal}

theorem visit (h : r.Stands root b t) (hE : Allows r.setting root E (Ready r.setting b t))
    (hj : Coherent r.target root j.notes.mark) (hc : c ∈ t.parts) (hvisited : c.isVisited)
    (hb : b' → b) :
    Ends (Coherent r.target root) E (r.visit b' c) j fun text n =>
      Wrote r.setting root b' c n ∧ Spelled r.target c text :=
  h.below c (Tree.mem_nodes_of_mem_parts hc) (Tree.height_lt_of_mem_parts hc) hvisited b' hb E j
    (hE.mono fun hready => hready.of_mem_nodes (Tree.mem_nodes_of_mem_parts hc)
      (Tree.isContainer_of_isVisited hvisited) hb) hj

theorem visitAll (h : r.Stands root b t) (hE : Allows r.setting root E (Ready r.setting b t))
    (hj : Coherent r.target root j.notes.mark) {cs : List Tree}
    (hcs : ∀ c ∈ cs, c ∈ t.parts ∧ c.isVisited) :
    Ends (Coherent r.target root) E (cs.mapM (r.visit b)) j fun texts n =>
      List.Forall₂ (fun c text => Wrote r.setting root b c n ∧ Spelled r.target c text) cs texts :=
  .mapM (S := fun c text n => Wrote r.setting root b c n ∧ Spelled r.target c text) hj
    (fun _ _ _ _ hafter h => ⟨h.1.after hafter, h.2⟩) fun c hc _ hk =>
      h.visit hE hk.keeps (hcs c hc).1 (hcs c hc).2 id

theorem noteNatural {α : Type} {R : α → Marks → Prop} {f : Unit → Render α} {type : ValueType}
    (h : r.Stands root b t) (hj : Coherent r.target root j.notes.mark) (htype : type = t.natural)
    (hf : ∀ k : Journal, Marks.After (Coherent r.target root) j.notes.mark k.notes.mark →
      Marks.Typed k.notes.mark t → Ends (Coherent r.target root) E (f ()) k R) :
    Ends (Coherent r.target root) E (Render.setType t type >>= f) j R :=
  .bind (.setType (Q := fun _ n => n.Typed t) hj h.formed.distinct h.mem (.inr htype)
    fun _ _ htyped => htyped) fun _ k hk htyped => hf k hk htyped

end Renderer.Stands

end QueryScribe
