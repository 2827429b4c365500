import QueryScribe.Proofs.Writing.Cast

/-!
# The arguments of calls

The arguments of a call are written one after the other, each for its slot. They can all be written
iff they are ready and fit their slots (`ends_callArguments`).

An argument may have been written as another type before. It is then one that its slot asks for, since
nothing else asks for the type of an argument, so it is accepted again.
-/

namespace QueryScribe

open List

open Render (Ends)

/-! ## Arguments and slots -/

theorem ArgumentsFit.length_le {target : Target} {slots : List Slot} {ts : List Tree}
    (h : ArgumentsFit target slots ts) : ts.length ≤ slots.length := by
  induction ts generalizing slots with
  | nil => exact Nat.zero_le _
  | cons t ts ih =>
    cases slots with
    | nil => exact h.elim
    | cons slot slots => exact Nat.succ_le_succ (ih h.2)

theorem fst_eq_of_mem_zip {α β : Type} {as : List α} {bs : List β} (hbs : bs.Nodup) {a a' : α} {b : β}
    (h : (a, b) ∈ as.zip bs) (h' : (a', b) ∈ as.zip bs) : a = a' := by
  induction as generalizing bs with
  | nil => cases h
  | cons c as ih =>
    cases bs with
    | nil => cases h
    | cons d bs =>
      obtain ⟨hd, hbs⟩ := nodup_cons.1 hbs
      rw [zip_cons_cons] at h h'
      rcases mem_cons.1 h with h | h
      · rcases mem_cons.1 h' with h' | h'
        · exact (Prod.mk.inj h).1.trans (Prod.mk.inj h').1.symm
        · exact absurd ((Prod.mk.inj h).2 ▸ (of_mem_zip h').2) hd
      · rcases mem_cons.1 h' with h' | h'
        · exact absurd ((Prod.mk.inj h').2 ▸ (of_mem_zip h).2) hd
        · exact ih hbs h h'

namespace Tree

variable {c t root : Tree}

theorem Formed.nodup_callArguments (hroot : root.Formed) (ht : t ∈ root.nodes) :
    t.callArguments.Nodup := by
  unfold callArguments
  split
  · rename_i args hargs
    have hmem : args ∈ t.subtrees := mem_of_mem_tail (mem_of_find?_eq_some hargs)
    have hdistinct := (Distinct.of_mem_nodes root hroot.distinct ht).of_mem_children
      (mem_children_of_mem_subtrees hmem)
    refine hdistinct.apart_subtrees.imp fun {c d} hcd heq => ?_
    exact Set.disjoint_left.1 hcd c.id_mem_region (heq ▸ d.id_mem_region)
  · exact nodup_nil

theorem Formed.isVisited_of_mem_callArguments (hroot : root.Formed) (ht : t ∈ root.nodes)
    (hcall : t.isOf .functionCall) (hc : c ∈ t.callArguments) : c.isVisited := by
  refine hroot.isVisited_of_mem_parts ht ?_ ?_ (hroot.mem_parts_of_mem_callArguments ht hcall hc)
  · intro rule hrule
    rw [beq_iff_eq.1 hcall] at hrule
    cases hrule
    exact .inl rfl
  · rw [isRefused, beq_iff_eq.1 hcall]
    rfl

theorem isContainer_of_call (hcall : t.isOf .functionCall) :
    t.isContainer = false ∧ t.isListing = false := by
  have hrule := beq_iff_eq.1 hcall
  rw [isContainer, isListing, isOf, isOf, hrule]
  exact ⟨rfl, rfl⟩

end Tree

/-- An argument of a call that has a type may be written as the type that its slot asks for. -/
theorem Position.of_mem_slots {target : Target} {root t arg : Tree} {n : Marks} {slot : Slot}
    {type : ValueType} (hroot : root.Formed) (ht : t ∈ root.nodes) (hcall : t.isOf .functionCall)
    (htyped : n.Typed t) (he : (slot, arg) ∈ t.slots) (hnumeric : slot.numeric? = some type)
    (hcasts : arg.CastsTo target type) : Position target root n type arg := by
  have hmem := hroot.mem_parts_of_mem_callArguments ht hcall (Tree.mem_callArguments_of_mem_slots he)
  obtain ⟨hcontainer, -⟩ := Tree.isContainer_of_call hcall
  constructor
  · intro s hs hscontainer _ harg
    rw [hroot.distinct.eq_of_mem_parts hs ht hscontainer hcontainer harg hmem]
    exact htyped
  · intro s hs hscall slot' he'
    have hmem' := hroot.mem_parts_of_mem_callArguments hs hscall
      (Tree.mem_callArguments_of_mem_slots he')
    obtain rfl := hroot.distinct.eq_of_mem_parts hs ht (Tree.isContainer_of_call hscall).1 hcontainer
      hmem' hmem
    rw [fst_eq_of_mem_zip (hroot.nodup_callArguments hs) he' he]
    exact ⟨hnumeric, hcasts⟩

/-- No slot asks for a number in octal. -/
theorem ValueType.numeric?_ne_octal {type : ValueType} {slot : Slot} (h : slot ∈ type.parameters) :
    slot.numeric? ≠ some .octal := by
  revert slot
  cases type with
  | regexFlag flag => rintro _ ⟨⟩
  | _ => decide

namespace Renderer

variable {r : Renderer} {root t : Tree} {b b' : Bool} {E : Fault → Prop} {j : Journal}

/-! ## Writing arguments -/

/-- What is known after the arguments of a call were written: they are, with their texts, and fit
their slots. -/
structure WroteArguments (setting : Setting) (root : Tree) (b : Bool) (slots : List Slot) (ts : List Tree)
    (texts : List String) (n : Marks) : Prop where
  wrote : ∀ t ∈ ts, Wrote setting root b t n
  spelled : List.Forall₂ (Spelled setting.target) ts texts
  fit : ArgumentsFit setting.target slots ts

/-- The type that an argument was written as before is the one that its slot asks for. -/
def AskedFor (target : Target) (slot : Slot) (t : Tree) (type : ValueType) : Prop :=
  slot.numeric? = some type ∧ t.CastsTo target type

theorem Accepted.isSome_iff {target : Target} {slot : Slot} {text? : Option String}
    (h : Accepted target slot t (AskedFor target slot t) text?) : text?.isSome ↔ slot.Takes target t := by
  obtain ⟨type, hkin, htype, h⟩ := h
  cases text? with
  | some text =>
    refine ⟨fun _ => ?_, fun _ => rfl⟩
    rcases htype with rfl | ⟨hnumeric, hcasts⟩
    · exact h.2
    · have hnatural : t.natural.isNumeric :=
        hkin.elim (fun heq => heq ▸ (Slot.of_numeric? hnumeric).1) fun h => h.2
      exact .inr ⟨hnatural, type, hnumeric, hcasts⟩
  | none =>
    refine ⟨nofun, fun htakes => ?_⟩
    obtain ⟨hadmits, hnone⟩ := h
    rcases htype with rfl | ⟨hnumeric, -⟩
    · rcases htakes with h | ⟨hnatural, expected, hexpected, -⟩
      · rw [hadmits] at h
        cases h
      · rw [hnone hnatural] at hexpected
        cases hexpected
    · rw [Slot.admits_of_numeric? hnumeric] at hadmits
      cases hadmits

/-- Writing an argument of a call for its slot. -/
theorem ends_argument (h : r.Stands root b t) (hcall : t.isOf .functionCall) (hb : b' → b) {slot : Slot}
    {arg : Tree} (he : (slot, arg) ∈ t.slots) {P : Prop} (hE : Allows r.setting root E P)
    (hready : P → Ready r.setting b' arg ∧ slot.Takes r.target arg)
    (hj : Coherent r.target root j.notes.mark) (htyped : Marks.Typed j.notes.mark t) :
    Ends (Coherent r.target root) E (r.cast? b' slot arg) j fun text? n =>
      Wrote r.setting root b' arg n ∧
        Accepted r.target slot arg (AskedFor r.target slot arg) text? := by
  have hmem := h.formed.mem_parts_of_mem_callArguments h.mem hcall
    (Tree.mem_callArguments_of_mem_slots he)
  have hnodes := Tree.mem_nodes_of_mem_parts hmem
  have hvisited := h.formed.isVisited_of_mem_callArguments h.mem hcall
    (Tree.mem_callArguments_of_mem_slots he)
  refine ends_cast? h.formed (Tree.mem_nodes_trans h.mem hnodes) hvisited (fun s hs hsvisited => ?_)
    (ValueType.numeric?_ne_octal (of_mem_zip he).1) hE (fun hP => (hready hP).1)
    (fun hP type expected htype hadmits _ hexpected => ?_) hj (fun n type hn hown htype => ?_)
    fun expected hexpected hcasts => ?_
  · exact h.below s (Tree.mem_nodes_trans hnodes hs)
      ((Tree.height_le_of_mem_nodes hs).trans_lt (Tree.height_lt_of_mem_parts hmem)) hsvisited b' hb
  · rcases htype with rfl | ⟨hnumeric, -⟩
    · rcases (hready hP).2 with h | ⟨-, type, htype, hcasts⟩
      · rw [hadmits] at h
        cases h
      · rw [hexpected] at htype
        cases htype
        exact hcasts
    · rw [Slot.admits_of_numeric? hnumeric] at hadmits
      cases hadmits
  · exact hn.slots t h.mem hcall (slot, arg) he hown type htype
  · exact .of_mem_slots h.formed h.mem hcall htyped he hexpected hcasts

/-- Writing the arguments of a call from some slot on. -/
theorem ends_argumentsFrom (h : r.Stands root b t) (hcall : t.isOf .functionCall) (hb : b' → b)
    (callee : String) (index : Nat) {slots : List Slot} {ts : List Tree}
    (hlength : ts.length ≤ slots.length) (hslots : ∀ e ∈ slots.zip ts, e ∈ t.slots) {P : Prop}
    (hE : Allows r.setting root E P)
    (hready : P → (∀ arg ∈ ts, Ready r.setting b' arg) ∧ ArgumentsFit r.target slots ts)
    (hj : Coherent r.target root j.notes.mark) (htyped : Marks.Typed j.notes.mark t) :
    Ends (Coherent r.target root) E (r.argumentsFrom b' callee index slots ts) j
      (WroteArguments r.setting root b' slots ts) := by
  induction slots generalizing ts index j with
  | nil =>
    obtain rfl := length_eq_zero_iff.1 (Nat.le_zero.1 hlength)
    exact .pure hj ⟨by simp, .nil, by rintro _ ⟨⟩⟩
  | cons slot slots ih =>
    cases ts with
    | nil =>
      unfold argumentsFrom
      split
      · rename_i habsent
        exact .pure hj ⟨by simp, .nil, fun s hs => Option.mem_some_iff.1 hs ▸ habsent⟩
      · rename_i habsent
        exact hE.fail hj (by rintro ⟨⟩) fun hP => habsent ((hready hP).2 slot rfl)
    | cons arg ts =>
      refine .bind (ends_argument h hcall hb (hslots (slot, arg) (.head _)) hE
        (fun hP => ⟨(hready hP).1 arg (.head _), (hready hP).2.1⟩) hj htyped)
        fun text? k hk hwritten => ?_
      obtain ⟨hwrote, haccepted⟩ := hwritten
      cases text? with
      | some text =>
        have htakes := haccepted.isSome_iff.1 rfl
        obtain ⟨-, -, -, hspelled, -⟩ := haccepted
        refine .bind (ih (index + 1) (Nat.le_of_succ_le_succ hlength)
          (fun e he => hslots e (.tail _ he))
          (fun hP => ⟨fun a ha => (hready hP).1 a (.tail _ ha), (hready hP).2.2⟩) hk.keeps
          (htyped.after hk)) fun texts k' hk' hrest => ?_
        exact .pure hk'.keeps ⟨forall_mem_cons.2 ⟨hwrote.after hk', hrest.wrote⟩,
          .cons hspelled hrest.spelled, htakes, hrest.fit⟩
      | none =>
        refine .bind (.typeOf (Q := fun _ _ => True) hk.keeps (hwrote.typed arg (.refl arg))
          fun _ _ => trivial) fun type k' hk' _ => ?_
        refine hE.fail hk'.keeps (by rintro ⟨⟩) fun hP => ?_
        cases haccepted.isSome_iff.2 (hready hP).2.1

/-- Writing the arguments of a call, which succeeds where they are ready and fit. -/
theorem ends_callArguments_of_fit (h : r.Stands root b t) (hcall : t.isOf .functionCall) (hb : b' → b)
    (c : Callee) (hc : c.type = t.calleeType) {P : Prop} (hE : Allows r.setting root E P)
    (hready : P → (∀ arg ∈ t.callArguments, Ready r.setting b' arg) ∧
      ArgumentsFit r.target t.calleeType.parameters t.callArguments)
    (hj : Coherent r.target root j.notes.mark) (htyped : Marks.Typed j.notes.mark t) :
    Ends (Coherent r.target root) E (r.callArguments b' c t) j
      (WroteArguments r.setting root b' t.calleeType.parameters t.callArguments) := by
  have hfit := fun hP => (hready hP).2
  unfold callArguments arguments
  rw [hc]
  split
  · rename_i hslots hargs
    rw [hslots, hargs]
    exact .pure hj ⟨nofun, .nil, nofun⟩
  · rename_i slot slots hslots hargs
    rw [hslots, hargs] at hfit ⊢
    split
    · rename_i habsent
      exact .pure hj ⟨nofun, .nil, fun s hs => Option.mem_some_iff.1 hs ▸ habsent⟩
    · rename_i habsent
      exact hE.fail hj nofun fun hP => habsent (hfit hP slot rfl)
  · split
    · rename_i hlength
      exact hE.fail hj nofun fun hP => absurd (hfit hP).length_le (Nat.not_le.2 hlength)
    · rename_i hlength
      exact ends_argumentsFrom h hcall hb _ 0 (Nat.not_lt.1 hlength) (fun e he => he) hE hready hj htyped

theorem ends_callArguments (h : r.Stands root b t) (hcall : t.isOf .functionCall) (hb : b' → b)
    (c : Callee) (hc : c.type = t.calleeType)
    (hE : Allows r.setting root E (Ready r.setting b t)) (hj : Coherent r.target root j.notes.mark)
    (htyped : Marks.Typed j.notes.mark t) :
    Ends (Coherent r.target root) E (r.callArguments b' c t) j
      (WroteArguments r.setting root b' t.calleeType.parameters t.callArguments) := by
  refine ends_callArguments_of_fit h hcall hb c hc hE (fun hready => ⟨fun arg harg => ?_, ?_⟩) hj htyped
  · have hmem := h.formed.mem_parts_of_mem_callArguments h.mem hcall harg
    exact hready.of_mem_nodes (Tree.mem_nodes_of_mem_parts hmem) (Tree.isContainer_of_mem_parts hmem) hb
  · have hadmitted := hready.admitted.2
    rw [beq_iff_eq.1 hcall] at hadmitted
    exact hadmitted.1

end Renderer

end QueryScribe
