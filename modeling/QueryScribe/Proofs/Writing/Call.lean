import QueryScribe.Proofs.Writing.Arguments

/-!
# Calls

Whatever its treatment, a call gets its natural type before its arguments are written, and then has
their values at hand. Each treatment succeeds iff its arguments are what it asks for
(`Treatment.Fits`), and what else could go wrong with them does not: the counts that it matches on
follow from the slots, and the types that it asks for have been noted.
-/

namespace QueryScribe

open List

open Literal
open Render (Ends)

/-! ## The parts of a call -/

namespace Tree

variable {c t root : Tree}

theorem natural_of_call (hcall : t.isOf .functionCall) : t.natural = t.calleeType.result := by
  obtain ⟨id, span, cs, rfl⟩ := exists_of_isOf hcall
  rw [natural_node]
  rfl

theorem mem_parts_of_isVisited (hc : c ∈ t.children) (hvisited : c.isVisited) : c ∈ t.parts := by
  refine mem_parts.2 ⟨c, hc, ?_⟩
  rw [isContainer_of_isVisited hvisited]
  exact ⟨isNode_of_isVisited hvisited, rfl⟩

theorem Formed.parts_of_items (hroot : root.Formed) (ht : t ∈ root.nodes)
    (hrule : t.rule? = some .argList ∨ t.rule? = some .testListComp) :
    (∀ c ∈ t.children, c.isVisited) ∧ t.parts = t.subtrees := by
  cases t with
  | leaf => rcases hrule with h | h <;> cases h
  | node id rule span cs =>
    have hitems : ∀ c ∈ cs, c.isVisited := by
      rcases hrule with hrule | hrule
      all_goals
        cases hrule
        exact (hroot.form ht (.inl rfl)).hasForm
    exact ⟨hitems, parts_eq_subtrees fun c hc => isContainer_of_isVisited (hitems c hc)⟩

/-- A call has a callee first, and all its other parts are arguments. -/
theorem Formed.exists_callee (hroot : root.Formed) (ht : t ∈ root.nodes)
    (hcall : t.isOf .functionCall) : ∃ callee rest, t.subtrees = callee :: rest ∧
      callee ∈ t.parts ∧ callee.isVisited ∧ callee.natural = t.calleeType ∧
        ∀ c ∈ t.parts, c = callee ∨ c ∈ t.callArguments := by
  obtain ⟨id, span, cs, rfl⟩ := exists_of_isOf hcall
  cases hroot.form_of_isVisited ht rfl with
  | @call callee hvisited =>
    have hsubtrees : (node id .functionCall span [callee]).subtrees = [callee] := by
      simp [subtrees, children, isNode_of_isVisited hvisited]
    refine ⟨callee, [], hsubtrees, mem_parts_of_isVisited (mem_singleton_self _) hvisited,
      hvisited, by rw [calleeType, hsubtrees]; rfl, fun c hc => .inl ?_⟩
    obtain ⟨d, hd, hpart⟩ := mem_parts.1 hc
    obtain rfl := mem_singleton.1 hd
    rw [isContainer_of_isVisited hvisited] at hpart
    exact hpart.2
  | @callWith callee args hvisited hargs =>
    have hnode : args.isNode := by
      cases args with
      | leaf => cases hargs
      | node => rfl
    have hlist : args.isOf .argList := beq_iff_eq.2 hargs
    have hsubtrees : (node id .functionCall span [callee, args]).subtrees = [callee, args] := by
      simp [subtrees, children, isNode_of_isVisited hvisited, hnode]
    have harguments : (node id .functionCall span [callee, args]).callArguments = args.subtrees := by
      rw [callArguments, hsubtrees, tail_cons, find?_cons_of_pos hlist]
    have hmem : args ∈ root.nodes :=
      mem_nodes_trans ht (mem_nodes_of_mem_children (by simp [children]) (self_mem_nodes hnode))
    refine ⟨callee, [args], hsubtrees, mem_parts_of_isVisited (by simp [children]) hvisited, hvisited,
      by rw [calleeType, hsubtrees]; rfl, fun c hc => ?_⟩
    obtain ⟨d, hd, hpart⟩ := mem_parts.1 hc
    rcases mem_cons.1 hd with rfl | hd
    · rw [isContainer_of_isVisited hvisited] at hpart
      exact .inl hpart.2
    · obtain rfl := mem_singleton.1 hd
      have hcontainer : d.isContainer := by rw [isContainer, hargs]; rfl
      rw [if_pos hcontainer, (hroot.parts_of_items hmem (.inl hargs)).2, ← harguments] at hpart
      exact .inr hpart
  | refused h | wrapper h | literal h | empty h | collection h | logical h | operation h => cases h
  | qualified h | items h => rcases h with h | h <;> cases h

end Tree

/-! ## What a call needs -/

/-- What holds of a call once it was written: it has a type, its arguments were written, and it fits
them. -/
structure Called (setting : Setting) (root : Tree) (b : Bool) (t : Tree) (n : Marks) : Prop where
  typed : n.Typed t
  arguments : ∀ arg ∈ t.callArguments, Wrote setting root b arg n
  fits : CallFits setting t.calleeType t.callArguments

namespace Called

variable {setting : Setting} {root t : Tree} {b : Bool} {n : Marks}

theorem wrote (h : Called setting root b t n) (hroot : root.Formed) (ht : t ∈ root.nodes)
    (hcall : t.isOf .functionCall)
    (hparts : ∀ c ∈ t.parts, Wrote setting root b c n ∨ c ∈ t.callArguments) :
    Wrote setting root b t n := by
  obtain ⟨id, span, cs, rfl⟩ := Tree.exists_of_isOf hcall
  exact .of_parts hroot ht rfl ⟨rfl, h.fits⟩ h.typed fun c hc =>
    (hparts c hc).elim (fun hwrote => hwrote) (h.arguments c)

theorem natural_ne_string (h : Called setting root b t n) (hcall : t.isOf .functionCall) :
    t.natural ≠ .string := by
  rw [Tree.natural_of_call hcall]
  obtain ⟨-, -, -, hfits⟩ := h
  generalize t.calleeType = type at hfits ⊢
  intro hstring
  cases type
  all_goals first | cases hstring; done | exact hfits rfl

end Called

variable {setting : Setting} {target : Target}

theorem Ready.callFits {b : Bool} {t : Tree} (h : Ready setting b t)
    (hcall : t.isOf .functionCall) : CallFits setting t.calleeType t.callArguments := by
  have hadmitted := h.admitted.2
  rw [beq_iff_eq.1 hcall] at hadmitted
  exact hadmitted

theorem Ready.treatmentFits {b : Bool} {t : Tree} (h : Ready setting b t)
    (hcall : t.isOf .functionCall) {treatment : Treatment}
    (htreatment : t.calleeType.treatment? = some treatment) :
    treatment.Fits setting t.calleeType t.callArguments := by
  have hfits := (h.callFits hcall).2
  rw [htreatment] at hfits
  exact hfits

theorem ArgumentsFit.exists_cons {slot : Slot} {slots : List Slot} {ts : List Tree}
    (h : ArgumentsFit target (slot :: slots) ts) (hslot : slot.mayBeAbsent = false) :
    ∃ arg args, ts = arg :: args ∧ slot.Takes target arg ∧ ArgumentsFit target slots args := by
  cases ts with
  | nil =>
    rw [h slot rfl] at hslot
    cases hslot
  | cons arg args => exact ⟨arg, args, rfl, h⟩

theorem ArgumentsFit.eq_nil_or {slot : Slot} {ts : List Tree}
    (h : ArgumentsFit target [slot] ts) : ts = [] ∨ ∃ arg, ts = [arg] ∧ slot.Takes target arg := by
  cases ts with
  | nil => exact .inl rfl
  | cons arg args =>
    cases args with
    | nil => exact .inr ⟨arg, rfl, h.1⟩
    | cons => exact h.2.elim

theorem Slot.Takes.natural_eq_string {t : Tree}
    (h : (Slot.optional [.string]).Takes target t) : t.natural = .string := by
  rcases h with h | ⟨-, type, htype, -⟩
  · generalize t.natural = type at h ⊢
    revert h
    cases type
    case regexFlag f => cases f <;> decide
    all_goals decide
  · cases htype

theorem ValueType.Kin.flag?_eq {a b : ValueType} (h : a.Kin b) : a.flag? = b.flag? := by
  rcases h with rfl | ⟨ha, hb⟩
  · rfl
  · cases a <;> cases ha <;> cases b <;> cases hb <;> rfl

theorem forall_flag_iff {operands : List Tree} {types : List ValueType}
    (h : Forall₂ (fun operand type => type.flag? = operand.natural.flag?) operands types) :
    (∀ type ∈ types, type.flag?.isSome) ↔ ∀ operand ∈ operands, operand.natural.flag?.isSome := by
  induction h with
  | nil => exact ⟨fun _ => nofun, fun _ => nofun⟩
  | cons h _ ih => rw [forall_mem_cons, forall_mem_cons, h, ih]

theorem ValueType.Kin.eq_string_iff {a b : ValueType} (h : a.Kin b) : a = .string ↔ b = .string := by
  rcases h with rfl | ⟨ha, hb⟩
  · exact Iff.rfl
  · refine ⟨fun h => ?_, fun h => ?_⟩
    · rw [h] at ha
      cases ha
    · rw [h] at hb
      cases hb

theorem Tree.spine_of_mem_flagOperands {t operand : Tree} (h : operand ∈ t.flagOperands) :
    t.Spine operand := by
  unfold flagOperands at h
  dsimp only at h
  split at h
  · rename_i hexpr
    refine t.spine_core.trans (.step ?_ (.refl operand))
    rwa [operands, hexpr, Bool.or_true, if_pos rfl]
  · rw [mem_singleton.1 h]
    exact t.spine_core

/-- The components of a date are all integers. -/
theorem exists_components {args : List Tree} {parts : List Number}
    (h : Forall₂ (fun arg part => ∃ n, arg.integer? = some n ∧ part = .int n) args parts) :
    ∃ components : List Int, args.mapM Tree.integer? = some components ∧
      parts = components.map .int := by
  induction h with
  | nil => exact ⟨[], rfl, rfl⟩
  | cons h _ ih =>
    obtain ⟨n, hn, rfl⟩ := h
    obtain ⟨components, hcomponents, rfl⟩ := ih
    exact ⟨n :: components, by rw [mapM_cons, hn, hcomponents]; rfl, rfl⟩

theorem discard_bind {m : Type → Type} [Monad m] [LawfulMonad m] {α β : Type} (x : m α)
    (f : Unit → m β) : (discard x >>= f) = x >>= fun _ => f () := by
  unfold discard
  rw [LawfulFunctor.map_const]
  exact bind_map_left _ _ _

namespace Renderer

variable {r : Renderer} {root t : Tree} {b b' : Bool} {E : Fault → Prop} {j : Journal} {c : Callee}

section Treatments

variable (h : r.Stands root b t) (hcall : t.isOf .functionCall) (hc : c.type = t.calleeType)
  (hE : Allows r.setting root E (Ready r.setting b t)) (hj : Coherent r.target root j.notes.mark)

include h hcall hc hE hj

/-- A call with a treatment notes its type and has its arguments written before it goes on. It then
succeeds iff it has what its treatment asks for. -/
theorem ends_prepared {treatment : Treatment} (htreatment : t.calleeType.treatment? = some treatment)
    {type : ValueType} (htype : type = t.calleeType.result) (hb : b' → b)
    {f : List String → Render String}
    (hf : ∀ texts k, Coherent r.target root k.notes.mark →
      WroteArguments r.setting root b' t.calleeType.parameters t.callArguments texts k.notes.mark →
      Allows r.setting root E
        (r.target.Marked ∧ treatment.Fits r.setting t.calleeType t.callArguments) →
      Ends (Coherent r.target root) E (f texts) k fun _ _ =>
        treatment.Fits r.setting t.calleeType t.callArguments) :
    Ends (Coherent r.target root) E (do
      Render.setType t type
      let args ← r.callArguments b' c t
      f args) j fun _ => Called r.setting root b t := by
  have hnatural : type = t.natural := htype.trans (t.natural_of_call hcall).symm
  refine h.noteNatural hj hnatural fun k hk htyped => ?_
  refine .bind (ends_callArguments h hcall hb c hc hE hk.keeps htyped) fun texts k' hk' hargs => ?_
  refine (hf texts k' hk'.keeps hargs (hE.mono fun hready =>
    ⟨hready.marked, hready.treatmentFits hcall htreatment⟩)).imp fun text n hn hfits => ?_
  refine ⟨(htyped.after hk').after hn, fun arg harg => ((hargs.wrote arg harg).after hn).mono hb,
    hargs.fit, ?_⟩
  rw [htreatment]
  exact hfits

theorem ends_numberCall (htreatment : t.calleeType.treatment? = some .number) :
    Ends (Coherent r.target root) E (r.numberCall b c t) j fun _ => Called r.setting root b t := by
  rw [numberCall, Render.typeNamed_resultName, pure_bind]
  refine ends_prepared h hcall hc hE hj htreatment (by rw [hc]) id fun texts k hk hargs hE => ?_
  replace hE := hE.mono And.right
  have hroot := h.formed
  generalize t.callArguments = args at hargs hE ⊢
  generalize t.calleeType = type at hc hE ⊢
  cases hargs.spelled with
  | nil => exact .pure hk fun _ arg harg => by cases harg
  | @cons arg text args texts _ _ =>
    have hwrote := hargs.wrote arg (.head _)
    refine .bind (.ownNatural hk (hwrote.written arg (.refl arg)).1 (hwrote.typed arg (.refl arg)))
      fun own k₁ hk₁ hown => ?_
    subst hown
    dsimp only
    rw [hc]
    split
    · rename_i htest
      obtain ⟨rfl, hstring⟩ : type = .int64Class ∧ arg.natural = .string := by simpa using htest
      have hfits : Treatment.number.Fits r.setting .int64Class (arg :: args) ↔
          ∃ text digits, arg.stringValue? r.setting.names = some text ∧ int64Text text = .ok digits ∧
            (r.target.writeLiteral .long digits).isOk := by
        simp [Treatment.Fits, hstring, setting]
      rw [hfits] at hE ⊢
      have hsome : (∃ text digits, arg.stringValue? r.setting.names = some text ∧
          int64Text text = .ok digits ∧ (r.target.writeLiteral .long digits).isOk) →
          (arg.stringValue? r.setting.names).isSome := by
        rintro ⟨text, -, hvalue, -⟩
        rw [hvalue]
        rfl
      refine .bind (ends_stringValue hE hsome hk₁.keeps) fun value k₂ hk₂ hvalue => ?_
      rw [hvalue] at hE ⊢
      refine .bind (hE.ofFault (e := int64Text value) ?_ hk₂.keeps fun fault hfault => ?_)
        fun digits k₃ hk₃ hdigits => ?_
      · rintro ⟨text, digits, hvalue, hdigits, -⟩
        cases hvalue
        rw [hdigits]
        rfl
      · rcases int64Text_eq_error hfault with ⟨cause, rfl, hcause⟩ | rfl
        · exact .of_evaluation hcause
        · exact .long (hwrote.written arg (.refl arg)).1 (.inr ⟨value, hvalue, hfault⟩)
      refine .bind (hE.literal (by rintro ⟨⟩) ?_ hk₃.keeps) fun written k₄ hk₄ hok => ?_
      · rintro ⟨text, digits', hvalue, hdigits', hok⟩
        cases hvalue
        rw [hdigits] at hdigits'
        cases hdigits'
        exact hok
      exact .bind (.pure (Q := fun _ _ => True) hk₄.keeps trivial) fun _ k₅ hk₅ _ =>
        .pure hk₅.keeps ⟨value, digits, rfl, hdigits, hok⟩
    · rename_i htest
      split
      · rename_i htest'
        obtain ⟨rfl, hnumber⟩ : type = .int64Class ∧ (Signed.ofTree arg).isNumber := by
          simpa using htest'
        have hstring : arg.natural ≠ .string := by simpa using htest
        have hfits : Treatment.number.Fits r.setting .int64Class (arg :: args) ↔
            ∃ value, arg.number? = some value ∧ (int64 value).isOk := by
          simp [Treatment.Fits, hstring, hnumber]
        rw [hfits] at hE ⊢
        have hsome : (∃ value, arg.number? = some value ∧ (int64 value).isOk) →
            arg.number?.isSome := by
          rintro ⟨value, hvalue, -⟩
          rw [hvalue]
          rfl
        refine .bind (ends_numericValue hroot (hwrote.after hk₁) hE hsome hk₁.keeps)
          fun value k₂ hk₂ hvalue => ?_
        rw [discard_bind]
        refine .bind (hE.ofFault (e := int64 value) ?_ hk₂.keeps fun fault hfault => ?_)
          fun digits k₃ hk₃ hdigits => ?_
        · rintro ⟨value', hvalue', hok⟩
          rw [hvalue] at hvalue'
          cases hvalue'
          exact hok
        · rcases int64_eq_error hfault with ⟨cause, rfl, hcause⟩ | ⟨rfl, hlong⟩
          · exact .of_evaluation hcause
          · exact .long (hwrote.written arg (.refl arg)).1 (.inl ⟨value, hvalue, hlong⟩)
        exact .bind (.pure (Q := fun _ _ => True) hk₃.keeps trivial) fun _ k₄ hk₄ _ =>
          .pure hk₄.keeps ⟨value, hvalue, by rw [hdigits]; rfl⟩
      · rename_i htest'
        refine .bind (.pure (Q := fun _ _ => True) hk₁.keeps trivial) fun _ k₂ hk₂ _ =>
          .pure hk₂.keeps ?_
        rintro rfl arg' harg
        obtain rfl := Option.mem_some_iff.1 harg
        rw [if_neg (by simpa using htest)]
        exact fun h => absurd h (by simpa using htest')

/-- A regular expression of the database. Its options are written before they are looked at, so they
are accepted as the text that is written of them. -/
theorem ends_regexCall (htype : t.calleeType = .regexClass) :
    Ends (Coherent r.target root) E (r.regexCall b c t) j fun _ => Called r.setting root b t := by
  have htreatment : t.calleeType.treatment? = some .regex := by rw [htype]; rfl
  refine ends_prepared h hcall hc hE hj htreatment (by rw [hc, htype]; rfl) id fun texts k hk hargs hE => ?_
  obtain ⟨-, hspelled, hfit⟩ := hargs
  rw [htype] at hfit
  generalize t.callArguments = args at hspelled hfit hE ⊢
  obtain ⟨pattern, rest, rfl, -, hrest⟩ := hfit.exists_cons rfl
  rcases hrest.eq_nil_or with rfl | ⟨options, rfl, htakes⟩
  · obtain _ | ⟨_, _ | _⟩ := hspelled
    exact .pure hk fun _ options hoptions => nomatch hoptions
  · obtain _ | @⟨_, _, _, _, _, _ | @⟨_, text, _, _, hspelled, _ | _⟩⟩ := hspelled
    refine .bind (hE.ofCause (fun ⟨hmarked, hfits⟩ => ?_) hk fun cause => kind_of_writeFlags)
      fun flags k' hk' hflags => .pure hk'.keeps fun hmarked options' hoptions => ?_
    · obtain ⟨hliteral, haccepts⟩ := hfits hmarked options rfl
      have hspelled := hspelled hmarked htakes.natural_eq_string
      rw [if_pos hliteral] at hspelled
      rw [hspelled]
      exact haccepts
    · obtain rfl := Option.mem_some_iff.1 hoptions
      have haccepts : r.target.acceptsFlags text := by
        rw [Target.acceptsFlags, hflags]
        rfl
      have hspelled := hspelled hmarked htakes.natural_eq_string
      split at hspelled
      · rename_i hliteral
        rw [← hspelled]
        exact ⟨hliteral, haccepts⟩
      · obtain ⟨char, hmem, hforeign⟩ := hspelled
        rw [acceptsFlags_eq_false hmem hforeign] at haccepts
        cases haccepts

theorem ends_codeCall (htype : t.calleeType = .codeClass) :
    Ends (Coherent r.target root) E (r.codeCall c t) j fun _ => Called r.setting root b t := by
  have htreatment : t.calleeType.treatment? = some .code := by rw [htype]; rfl
  have hb : false → b := nofun
  refine ends_prepared h hcall hc hE hj htreatment (by rw [hc, htype]; rfl) hb fun texts k hk hargs hE => ?_
  obtain ⟨-, hspelled, hfit⟩ := hargs
  rw [htype] at hfit
  generalize t.callArguments = args at hspelled hfit hE ⊢
  obtain ⟨code, rest, rfl, -, hrest⟩ := hfit.exists_cons rfl
  rcases hrest.eq_nil_or with rfl | ⟨scope, rfl, -⟩
  · obtain _ | ⟨_, _ | _⟩ := hspelled
    exact .pure hk trivial
  · obtain _ | ⟨_, _ | ⟨_, _ | _⟩⟩ := hspelled
    refine .bind (.touch (Q := fun _ _ => True) _ hk trivial) fun _ k₁ hk₁ _ => ?_
    refine .useThen hk₁.keeps fun k₂ hk₂ => ?_
    exact .pure hk₂.keeps trivial

/-- The arguments of a date. A failure in one of them becomes that of the date. -/
theorem ends_dateArguments (htyped : Marks.Typed j.notes.mark t) :
    Ends (Coherent r.target root) E (r.dateArguments b c t) j fun _ n =>
      ∃ texts, WroteArguments r.setting root b t.calleeType.parameters t.callArguments texts n := by
  let E' : Fault → Prop := fun fault => Expected r.setting root fault ∧ ¬ Ready r.setting b t
  have hE' : Allows r.setting root E' (Ready r.setting b t) := fun _ hfault hready => ⟨hfault, hready⟩
  have hargs := ends_callArguments h hcall id c hc hE' hj htyped
  refine (hargs.imp fun texts n _ hargs => ?_).map.tryCatch fun fault k hk ⟨hexpected, hready⟩ => ?_
  · exact ⟨texts, hargs⟩
  · split
    · split
      · exact hE.failAt hk.keeps nofun hready
      · exact .throw hk.keeps (hE _ hexpected hready)
    · exact .throw hk.keeps (hE _ hexpected hready)

theorem ends_datetimeCall (htype : t.calleeType = .datetimeClass) :
    Ends (Coherent r.target root) E (r.datetimeCall b c t) j fun _ => Called r.setting root b t := by
  have hnatural : ValueType.date = t.natural := by rw [t.natural_of_call hcall, htype]; rfl
  have hfits : CallFits r.setting t.calleeType t.callArguments ↔
      ArgumentsFit r.target t.calleeType.parameters t.callArguments ∧
        Treatment.datetime.Fits r.setting t.calleeType t.callArguments := by
    rw [CallFits, htype]
    rfl
  refine h.noteNatural hj hnatural fun k hk htyped => ?_
  dsimp only
  split
  · rename_i hempty
    have hnil := isEmpty_iff.1 hempty
    refine .pure hk.keeps ⟨htyped, by rw [hnil]; nofun, hfits.2 ⟨?_, .inl hnil⟩⟩
    rw [hnil, htype]
    exact fun slot hslot => Option.mem_some_iff.1 hslot ▸ rfl
  · rename_i hempty
    split
    · rename_i hlength
      refine hE.failAt hk.keeps nofun fun hready => ?_
      rcases (hfits.1 (hready.callFits hcall)).2 with hnil | ⟨hlength', -⟩
      · exact hempty (isEmpty_iff.2 hnil)
      · omega
    · rename_i hlength
      refine .bind (ends_dateArguments h hcall hc hE hk.keeps htyped)
        fun _ k₁ hk₁ ⟨texts, hargs⟩ => ?_
      replace hE := hE.mono fun hready => ((hfits.1 (hready.callFits hcall)).2.resolve_left
        fun hnil => hempty (isEmpty_iff.2 hnil)).2
      refine .bind (.mapM (S := fun (arg : Tree) (part : Number) _ =>
          ∃ n, arg.integer? = some n ∧ part = .int n) hk₁.keeps
        (fun _ _ _ _ _ h => h) fun arg harg k₂ hk₂ => ?_) fun parts k₂ hk₂ hparts => ?_
      · have hinteger := ends_integerValue h.formed ((hargs.wrote arg harg).after hk₂) hE
          (fun ⟨components, hcomponents, _⟩ => isSome_of_mapM hcomponents arg harg) hk₂.keeps
        have hpart := hinteger.bind (f := fun n => Pure.pure (Number.int n)) fun n k₃ hk₃ hn =>
          .pure (Q := fun part _ => ∃ n, arg.integer? = some n ∧ part = Number.int n) hk₃.keeps ⟨n, hn, rfl⟩
        simpa only [bind_assoc] using hpart
      · obtain ⟨components, hcomponents, rfl⟩ := exists_components hparts
        refine .bind (hE.ofCause (e := date (components.map Number.int)) ?_ hk₂.keeps
          fun cause => kind_of_date) fun moment k₃ hk₃ hmoment => ?_
        · rintro ⟨components', hcomponents', hok⟩
          rw [hcomponents] at hcomponents'
          cases hcomponents'
          exact hok
        have hafter := hk₂.trans hk₃
        refine .pure hk₃.keeps ⟨(htyped.after hk₁).after hafter,
          fun arg harg => (hargs.wrote arg harg).after hafter, hfits.2 ⟨hargs.fit, .inr ⟨?_, ?_⟩⟩⟩
        · exact Nat.not_lt.1 hlength
        · exact ⟨components, hcomponents, by rw [hmoment]; rfl⟩

theorem ends_fromDatetimeCall (htype : t.calleeType = .fromDatetime) :
    Ends (Coherent r.target root) E (r.fromDatetimeCall b c t) j fun _ =>
      Called r.setting root b t := by
  have htreatment : t.calleeType.treatment? = some .fromDatetime := by rw [htype]; rfl
  rw [fromDatetimeCall, Render.typeNamed_resultName, pure_bind]
  refine ends_prepared h hcall hc hE hj htreatment (by rw [hc]) id fun texts k hk hargs hE => ?_
  obtain ⟨hwrote, hspelled, hfit⟩ := hargs
  rw [htype] at hfit
  generalize t.callArguments = args at hwrote hspelled hfit hE ⊢
  obtain ⟨arg, rest, rfl, -, -⟩ := hfit.exists_cons rfl
  cases hspelled with
  | cons _ _ =>
    have htyped := (hwrote arg (.head _)).typed arg (.refl arg)
    refine .bind (.typeOf (Q := fun _ _ => True) hk htyped fun _ _ => trivial) fun type k₁ hk₁ _ => ?_
    dsimp only
    split
    · refine .useThen hk₁.keeps fun k₂ hk₂ => ?_
      exact .pure hk₂.keeps trivial
    · exact .pure hk₁.keeps trivial

theorem ends_compileCall (htype : t.calleeType = .compileFunction) :
    Ends (Coherent r.target root) E (r.compileCall b c t) j fun _ => Called r.setting root b t := by
  have htreatment : t.calleeType.treatment? = some .compile := by rw [htype]; rfl
  rw [compileCall, Render.typeNamed_resultName, pure_bind]
  refine ends_prepared h hcall hc hE hj htreatment (by rw [hc]) id fun texts k hk hargs hE => ?_
  obtain ⟨hwrote, hspelled, hfit⟩ := hargs
  rw [htype] at hfit
  generalize t.callArguments = args at hwrote hspelled hfit hE ⊢
  replace hE := hE.mono And.right
  obtain ⟨arg, rest, rfl, -, hrest⟩ := hfit.exists_cons rfl
  cases hspelled with
  | cons _ _ =>
    refine .bind (ends_stringValue hE (fun hfits => hfits.1 arg rfl) hk) fun value k₁ hk₁ hvalue => ?_
    have hpattern : ∀ arg' ∈ (arg :: rest).head?, (arg'.stringValue? r.setting.names).isSome := fun arg' harg' => by
      rw [← Option.mem_some_iff.1 harg', hvalue]
      rfl
    rcases hrest.eq_nil_or with rfl | ⟨union, rfl, -⟩
    · refine .bind (.pure (Q := fun _ _ => True) hk₁.keeps trivial) fun _ k₂ hk₂ _ => ?_
      exact .pure hk₂.keeps ⟨hpattern, fun _ h => nomatch h⟩
    · have hwrote := (hwrote union (by simp)).after hk₁
      replace hE := hE.mono fun hfits => hfits.2 union rfl
      -- An option has no number's type, so it has the type that it has for good.
      refine .bind (.mapM (S := fun (operand : Tree) (type : ValueType) _ =>
        type.flag? = operand.natural.flag?)
        hk₁.keeps (fun _ _ _ _ _ h => h) fun operand hoperand k₂ hk₂ => ?_)
        fun types k₂ hk₂ htypes => ?_
      · have hspine := Tree.spine_of_mem_flagOperands hoperand
        refine .typeOf hk₂.keeps ((hwrote.typed operand hspine).after hk₂) fun type htype => ?_
        exact ((hk₂.keeps.fits operand (hwrote.written operand hspine).1).kin htype).flag?_eq
      · have hflags : (∀ flag ∈ types.map fun type => type.flag?.map fun c => String.ofList [c],
            flag.isSome) ↔ ∀ operand ∈ union.flagOperands, operand.natural.flag?.isSome := by
          simp only [forall_mem_map, Option.isSome_map]
          exact forall_flag_iff htypes
        refine .bind (hE.ofCause (fun hall => isOk_regexFlags.2 (hflags.2 hall)) hk₂.keeps
          fun cause => kind_of_regexFlags) fun flags k₃ hk₃ hjoined => ?_
        refine .bind (hE.ofCause (fun _ => isOk_writeFlags_none _ _) hk₃.keeps
          fun cause => kind_of_writeFlags) fun written k₄ hk₄ _ => ?_
        refine .pure hk₄.keeps ⟨hpattern, fun union' hunion => ?_⟩
        obtain rfl := Option.mem_some_iff.1 hunion
        exact hflags.1 (isOk_regexFlags.1 (by rw [hjoined]; rfl))

theorem ends_objectIdCall (htype : t.calleeType = .objectIdClass) :
    Ends (Coherent r.target root) E (r.objectIdCall b c t) j fun _ => Called r.setting root b t := by
  have htreatment : t.calleeType.treatment? = some .objectId := by rw [htype]; rfl
  rw [objectIdCall]
  simp only [discard_bind]
  refine ends_prepared h hcall hc hE hj htreatment (by rw [hc, htype]; rfl) id
    fun texts k hk hargs hE => ?_
  replace hE := hE.mono And.right
  generalize t.callArguments = args at hE ⊢
  cases args with
  | nil => exact .pure hk fun _ h => nomatch h
  | cons arg args =>
    have hfits : Treatment.objectId.Fits r.setting t.calleeType (arg :: args) ↔
        ∃ text, arg.stringValue? r.setting.names = some text ∧ (objectId text).isOk := by
      simp [Treatment.Fits]
    rw [hfits] at hE ⊢
    refine .bind (ends_stringValue hE (fun ⟨text, hvalue, _⟩ => by rw [hvalue]; rfl) hk)
      fun value k₁ hk₁ hvalue => ?_
    rw [hvalue] at hE ⊢
    refine .bind (hE.ofCause (e := objectId value) ?_ hk₁.keeps
      fun cause => kind_of_objectId) fun hex k₂ hk₂ hhex => ?_
    · rintro ⟨text, hvalue, hok⟩
      cases hvalue
      exact hok
    exact .pure hk₂.keeps ⟨value, rfl, by rw [hhex]; rfl⟩

theorem ends_decimal128Call (htype : t.calleeType = .decimal128Class) :
    Ends (Coherent r.target root) E (r.decimal128Call b c t) j fun _ =>
      Called r.setting root b t := by
  have htreatment : t.calleeType.treatment? = some .decimal128 := by rw [htype]; rfl
  rw [decimal128Call]
  simp only [discard_bind]
  refine ends_prepared h hcall hc hE hj htreatment (by rw [hc, htype]; rfl) id
    fun texts k hk hargs hE => ?_
  obtain ⟨hwrote, -, hfit⟩ := hargs
  rw [htype] at hfit
  replace hE := hE.mono And.right
  have hroot := h.formed
  generalize t.callArguments = args at hwrote hfit hE ⊢
  obtain ⟨arg, args, rfl, -, -⟩ := hfit.exists_cons rfl
  have hwrote := hwrote arg (.head _)
  have hfits : Treatment.decimal128.Fits r.setting t.calleeType (arg :: args) ↔ ∃ text,
      (if arg.natural = .string then arg.stringValue? r.setting.names
        else arg.number?.bind (·.write.toOption)) = some text ∧
        (decimal128 text).isOk := by
    simp [Treatment.Fits]
  rw [hfits] at hE ⊢
  have hdecimal : ∀ (text : String) (k : Journal), Coherent r.target root k.notes.mark →
      Allows r.setting root E (decimal128 text).isOk →
      Ends (Coherent r.target root) E (do
        let digits ← Render.ofCause (decimal128 text)
        let value := r.target.writeValue digits
        return r.construction c (r.target.calls.decimal128.map (· c.text value)) [value]) k
          fun _ _ => (decimal128 text).isOk := fun text k hk hE =>
    .bind (hE.ofCause id hk fun cause => kind_of_decimal128) fun digits k' hk' hdigits =>
      .pure hk'.keeps (by rw [hdigits]; rfl)
  refine .bind (.typeOf (Q := fun type _ => type = .string ↔ arg.natural = .string) hk
    (hwrote.typed arg (.refl arg)) fun type htype =>
      ((hk.fits arg (hwrote.written arg (.refl arg)).1).kin htype).eq_string_iff)
    fun type k₁ hk₁ hstring => ?_
  split
  · rename_i heq
    rw [if_pos (hstring.1 heq)] at hE ⊢
    refine .bind (ends_stringValue hE (fun ⟨text, hvalue, _⟩ => by rw [hvalue]; rfl) hk₁.keeps)
      fun value k₂ hk₂ hvalue => ?_
    refine (hdecimal value k₂ hk₂.keeps (hE.mono fun ⟨text, hvalue', hok⟩ => ?_)).imp
      fun _ _ _ hok => ⟨value, hvalue, hok⟩
    rw [hvalue] at hvalue'
    cases hvalue'
    exact hok
  · rename_i hne
    rw [if_neg fun h => hne (hstring.2 h)] at hE ⊢
    refine .bind (ends_numericValue hroot (hwrote.after hk₁) hE (fun ⟨text, hvalue, _⟩ => ?_)
      hk₁.keeps) fun value k₂ hk₂ hvalue => ?_
    · obtain ⟨value, hvalue, -⟩ := Option.bind_eq_some_iff.1 hvalue
      rw [hvalue]
      rfl
    · rw [hvalue, Option.bind_some] at hE ⊢
      refine .bind (.ofConversion (Q := fun text _ => value.write = .ok text) hk₂.keeps
        (fun fault hfault => ?_) fun text htext => htext) fun text k₃ hk₃ htext => ?_
      · obtain ⟨rfl, hlong⟩ := Number.write_eq_error hfault
        rw [hfault] at hE
        exact hE _ (.long (hwrote.written arg (.refl arg)).1 (.inl ⟨value, hvalue, hlong⟩))
          fun ⟨_, h, _⟩ => nomatch h
      · rw [htext] at hE ⊢
        refine (hdecimal text k₃ hk₃.keeps (hE.mono fun ⟨_, heq, hok⟩ => ?_)).imp
          fun _ _ _ hok => ⟨text, rfl, hok⟩
        cases heq
        exact hok

theorem ends_otherCall (htreatment : t.calleeType.treatment? = none) :
    Ends (Coherent r.target root) E (r.otherCall b c t) j fun _ => Called r.setting root b t := by
  unfold otherCall
  rw [hc]
  split
  · rename_i hcallable
    refine hE.failAt hj nofun fun hready => ?_
    have hfits := (hready.callFits hcall).2
    rw [htreatment] at hfits
    exact hfits hcallable
  · rename_i hcallable
    rw [Render.typeNamed_resultName, pure_bind]
    refine .bind (.setType (Q := fun _ n => n.Typed t) hj h.formed.distinct h.mem
      (.inr (t.natural_of_call hcall).symm) fun n _ htyped => htyped) fun _ k hk htyped => ?_
    refine .bind (ends_callArguments h hcall id c hc hE hk.keeps htyped) fun texts k' hk' hargs => ?_
    refine .pure hk'.keeps ⟨htyped.after hk', hargs.wrote, hargs.fit, ?_⟩
    rw [htreatment]
    exact hcallable

theorem ends_treatedCall {treatment : Treatment}
    (htreatment : t.calleeType.treatment? = some treatment) :
    Ends (Coherent r.target root) E (r.treatedCall b c t treatment) j fun _ =>
      Called r.setting root b t := by
  generalize htype : t.calleeType = type at htreatment
  cases type
  case intFunction | floatFunction | int64Class =>
    cases htreatment
    exact ends_numberCall h hcall hc hE hj (by rw [htype]; rfl)
  case regexClass => cases htreatment; exact ends_regexCall h hcall hc hE hj htype
  case codeClass => cases htreatment; exact ends_codeCall h hcall hc hE hj htype
  case datetimeClass => cases htreatment; exact ends_datetimeCall h hcall hc hE hj htype
  case fromDatetime => cases htreatment; exact ends_fromDatetimeCall h hcall hc hE hj htype
  case compileFunction => cases htreatment; exact ends_compileCall h hcall hc hE hj htype
  case objectIdClass => cases htreatment; exact ends_objectIdCall h hcall hc hE hj htype
  case decimal128Class => cases htreatment; exact ends_decimal128Call h hcall hc hE hj htype
  case binaryClass =>
    cases htreatment
    have htreatment : t.calleeType.treatment? = some .binary := by rw [htype]; rfl
    exact hE.failAt hj nofun fun hready => hready.treatmentFits hcall htreatment
  all_goals cases htreatment

end Treatments

/-- A call by the type of its callee, which is its natural type unless the callee is a number. -/
theorem ends_callOf (h : r.Stands root b t) (hcall : t.isOf .functionCall) {type : ValueType}
    (hkin : type.Kin t.calleeType) (text : String)
    (hE : Allows r.setting root E (Ready r.setting b t)) (hj : Coherent r.target root j.notes.mark) :
    Ends (Coherent r.target root) E (match type.treatment? with
      | some treatment => do
        Render.log (.call type treatment)
        r.treatedCall b ⟨type, text⟩ t treatment
      | none => r.otherCall b ⟨type, text⟩ t) j fun _ => Called r.setting root b t := by
  rcases hkin with rfl | ⟨hnumeric, hnumeric'⟩
  · split
    · rename_i treatment htreatment
      refine .bind (.log (Q := fun _ _ => True) _ hj trivial) fun _ k hk _ => ?_
      exact ends_treatedCall h hcall rfl hE hk.keeps htreatment
    · rename_i htreatment
      exact ends_otherCall h hcall rfl hE hj htreatment
  · -- A number is not called, whatever type it is written as.
    have hnumber : ∀ type : ValueType, type.isNumeric → type.treatment? = none ∧ type.callable = .none := by
      intro type h
      cases type <;> first | exact ⟨rfl, rfl⟩ | cases h
    rw [(hnumber type hnumeric).1]
    dsimp only
    rw [otherCall, if_pos (hnumber type hnumeric).2]
    refine hE.failAt hj nofun fun hready => ?_
    have hfits := (hready.callFits hcall).2
    rw [(hnumber _ hnumeric').1] at hfits
    exact hfits (hnumber _ hnumeric').2

theorem writes_call (h : r.Stands root b t) (hcall : t.isOf .functionCall) :
    r.Writes root b t (r.call b t) := by
  intro E j hE hj
  obtain ⟨callee, rest, hsubtrees, hmem, hvisited, hnatural, hother⟩ :=
    h.formed.exists_callee h.mem hcall
  unfold call
  rw [hsubtrees]
  refine .bind (h.visit hE hj hmem hvisited id) fun text k hk ⟨hwrote, _⟩ => ?_
  refine .bind (.typeOf (Q := fun type _ => type.Kin t.calleeType) hk.keeps
    (hwrote.typed callee (.refl callee)) fun type htype => ?_) fun type k₁ hk₁ hkin => ?_
  · rw [← hnatural]
    exact (hk.keeps.fits callee (hwrote.written callee (.refl callee)).1).kin htype
  · refine (ends_callOf h hcall hkin text hE hk₁.keeps).imp fun text n hn hcalled => ⟨?_, ?_⟩
    · refine hcalled.wrote h.formed h.mem hcall fun c hc => ?_
      rcases hother c hc with rfl | hc
      · exact .inl (hwrote.after (hk₁.trans hn))
      · exact .inr hc
    · exact fun _ hstring => absurd hstring (hcalled.natural_ne_string hcall)

end Renderer

end QueryScribe
