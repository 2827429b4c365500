import QueryScribe.Proofs.Locality.Basic

/-!
# How actions end

A small program logic for actions that take notes. `Ends I E m j Q` says that from the journal `j` the
action `m` ends either in a result for which `Q` holds together with the marks that it leaves, or in
a fault from `E`; in both cases the invariant `I` holds of the marks and none of them is lost. Each
step of an action has a rule, and what was found of the marks is carried along by what is kept of
them (`Marks.After`).

A second run may start with some types noted that the first one notes on its way. Where the invariant
leaves no choice of these types (`Marks.Ahead`), the second run ends as the first one does, and this is
part of how an action ends: each rule only has to see that both runs read the same marks.

The faults are a parameter: with all faults that a compile may show an action is proved safe, with
none it is proved to succeed.
-/

namespace QueryScribe

/-- What is noted of all nodes. -/
abbrev Marks := Nat → Mark

namespace Marks

/-- Marks that come after others: an invariant holds of them, and none was lost. -/
structure After (I : Marks → Prop) (n m : Marks) : Prop where
  keeps : I m
  kept : ∀ i, (n i).Kept (m i)

variable {I : Marks → Prop} {n m p : Marks}

theorem After.refl (h : I n) : After I n n := ⟨h, fun _ => .refl _⟩

theorem After.trans (h : After I n m) (h' : After I m p) : After I n p :=
  ⟨h'.keeps, fun i => (h.kept i).trans (h'.kept i)⟩

/-- A node that has a type. -/
def Typed (n : Marks) (t : Tree) : Prop := (n t.id).type.isSome

theorem Typed.after {t : Tree} (ht : n.Typed t) (h : After I n m) : m.Typed t := (h.kept t.id).type ht

/-- Marks that are as others are, but for types that some nodes have ahead. As long as the invariant holds
and nothing is written as another type, these nodes can come to no other type. -/
def Ahead (I : Marks → Prop) (n m : Marks) : Prop :=
  ∀ i, m i = n i ∨ n i = ⟨none, none⟩ ∧ ∃ type, m i = ⟨some type, none⟩ ∧
    ∀ p, I p → (p i).own = none → ∀ type', (p i).type = some type' → type' = type

namespace Ahead

variable {t : Tree} {type : ValueType}

theorem eq_of_typed (h : Ahead I n m) (ht : n.Typed t) : m t.id = n t.id := by
  rcases h t.id with heq | ⟨hblank, -⟩
  · exact heq
  · rw [Typed, hblank] at ht
    cases ht

/-- A mark that is changed in both, to the same where only one of them has a type. -/
theorem update (h : Ahead I n m) (t : Tree) {g : Mark → Mark}
    (hg : n t.id = ⟨none, none⟩ → ∀ type, (∀ p, I p → (p t.id).own = none →
      ∀ type', (p t.id).type = some type' → type' = type) → g ⟨some type, none⟩ = g ⟨none, none⟩) :
    Ahead I (fun i => if i = t.id then g (n i) else n i) fun i => if i = t.id then g (m i) else m i := by
  intro i
  by_cases hi : i = t.id
  · subst hi
    refine .inl ?_
    simp only [if_true]
    rcases h t.id with heq | ⟨hblank, type, hahead, honly⟩
    · rw [heq]
    · rw [hblank, hahead]
      exact hg hblank type honly
  · simpa only [if_neg hi] using h i

/-- A type that is noted in both. Where it is noted late it is the one that was noted ahead. -/
theorem setType (h : Ahead I n m) (hI : I fun i => if i = t.id then (n i).withType type else n i) :
    Ahead I (fun i => if i = t.id then (n i).withType type else n i)
      fun i => if i = t.id then (m i).withType type else m i := by
  refine h.update (g := (·.withType type)) t fun hblank type' honly => ?_
  have hsame := honly _ hI (by rw [if_pos rfl, hblank]; rfl) type (by rw [if_pos rfl, hblank]; rfl)
  rw [hsame]
  rfl

theorem cast (h : Ahead I n m) (t : Tree) (type own : ValueType) :
    Ahead I (fun i => if i = t.id then (n i).cast type own else n i)
      fun i => if i = t.id then (m i).cast type own else m i :=
  h.update (g := (·.cast type own)) t fun _ _ _ => rfl

end Ahead

end Marks

theorem Notes.type?_eq_of_mark {n : Notes} {t : Tree} {type : ValueType}
    (h : (n.mark t.id).type = some type) : n.type? t = some type := by
  have htypes : n.types[t.id]? = some type := h
  unfold Notes.type?
  split
  · exact htypes
  · rw [Tree.id] at htypes
    rw [htypes]
  · exact htypes

theorem Notes.ownType?_eq_of_mark {n : Notes} {t : Tree} {type : ValueType}
    (h : (n.mark t.id).own.or (n.mark t.id).type = some type) : n.ownType? t = some type := by
  unfold Notes.ownType?
  change n.ownTypes[t.id]?.or (n.mark t.id).type = some type at h
  cases hown : n.ownTypes[t.id]? with
  | some own => rw [hown] at h; exact h
  | none => rw [hown] at h; exact Notes.type?_eq_of_mark h

namespace Render

variable {α β : Type}

/-- How an action ends from a journal: after its marks, in a result with a property or in one of some
faults, and from a journal that is ahead in the same way. -/
structure Ends (I : Marks → Prop) (E : Fault → Prop) (m : Render α) (j : Journal)
    (Q : α → Marks → Prop) : Prop where
  after : Marks.After I j.notes.mark (exec m j).2.notes.mark
  ends : match (exec m j).1 with
    | .ok a => Q a (exec m j).2.notes.mark
    | .error e => E e
  alike : ∀ k : Journal, Marks.Ahead I j.notes.mark k.notes.mark →
    ∃ k', exec m k = ((exec m j).1, k') ∧ Marks.Ahead I (exec m j).2.notes.mark k'.notes.mark

namespace Ends

variable {I : Marks → Prop} {E E' : Fault → Prop} {m : Render α} {f : α → Render β} {j : Journal}
  {Q Q' : α → Marks → Prop} {R : β → Marks → Prop}

theorem of_ok {a : α} {j' : Journal} (h : exec m j = (.ok a, j'))
    (hafter : Marks.After I j.notes.mark j'.notes.mark) (hQ : Q a j'.notes.mark)
    (halike : ∀ k : Journal, Marks.Ahead I j.notes.mark k.notes.mark → ∃ k', exec m k = (.ok a, k') ∧
      Marks.Ahead I j'.notes.mark k'.notes.mark) : Ends I E m j Q := by
  refine ⟨?_, ?_, ?_⟩
  all_goals rw [h]
  · exact hafter
  · exact hQ
  · exact halike

theorem exists_ok (h : Ends I (fun _ => False) m j Q) :
    ∃ a j', exec m j = (.ok a, j') ∧ Q a j'.notes.mark := by
  obtain ⟨-, hends, -⟩ := h
  rcases hexec : exec m j with ⟨fault | a, j'⟩
  · rw [hexec] at hends
    exact hends.elim
  · rw [hexec] at hends
    exact ⟨a, j', rfl, hends⟩

theorem pure {a : α} (hj : I j.notes.mark) (h : Q a j.notes.mark) :
    Ends I E (pure a : Render α) j Q :=
  ⟨.refl hj, h, fun k hk => ⟨k, rfl, hk⟩⟩

theorem throw {e : Fault} (hj : I j.notes.mark) (h : E e) : Ends I E (throw e : Render α) j Q :=
  ⟨.refl hj, h, fun k hk => ⟨k, rfl, hk⟩⟩

theorem imp (h : Ends I E m j Q)
    (hQ : ∀ a n, Marks.After I j.notes.mark n → Q a n → Q' a n) : Ends I E m j Q' := by
  obtain ⟨hafter, hends, halike⟩ := h
  refine ⟨hafter, ?_, halike⟩
  rcases hexec : exec m j with ⟨fault | a, j'⟩
  · rw [hexec] at hends
    exact hends
  · rw [hexec] at hafter hends
    exact hQ a _ hafter hends

theorem of_exec {P : α → Marks → Prop} (h : Ends I E m j Q)
    (hP : ∀ a k, exec m j = (.ok a, k) → P a k.notes.mark) : Ends I E m j fun a n => Q a n ∧ P a n := by
  obtain ⟨hafter, hends, halike⟩ := h
  refine ⟨hafter, ?_, halike⟩
  rcases hexec : exec m j with ⟨fault | a, j'⟩
  · rw [hexec] at hends
    exact hends
  · rw [hexec] at hends
    exact ⟨hends, hP a j' hexec⟩

theorem of_eq_ok {a : α} (h : Ends I E' m j Q) (ha : (exec m j).1 = .ok a) :
    Ends I E m j fun a' n => Q a' n ∧ a' = a := by
  obtain ⟨hafter, hends, halike⟩ := h
  refine ⟨hafter, ?_, halike⟩
  rw [ha] at hends ⊢
  exact ⟨hends, rfl⟩

/-- An action that goes on after another as a third one does. -/
theorem after_end {g : Render β} {end' : Except Fault α} {j' : Journal} {m' : Render β}
    (hexec : exec m j = (end', j')) (hafter : Marks.After I j.notes.mark j'.notes.mark)
    (halike : ∀ k : Journal, Marks.Ahead I j.notes.mark k.notes.mark → ∃ k', exec m k = (end', k') ∧ Marks.Ahead I j'.notes.mark k'.notes.mark)
    (hgoes : ∀ {l l' : Journal}, exec m l = (end', l') → exec g l = exec m' l') (hm' : Ends I E m' j' R) :
    Ends I E g j R := by
  obtain ⟨hafter', hends', halike'⟩ := hm'
  refine ⟨?_, ?_, ?_⟩
  all_goals rw [hgoes hexec]
  · exact hafter.trans hafter'
  · exact hends'
  · intro k hk
    obtain ⟨k', hexec', hk'⟩ := halike k hk
    rw [hgoes hexec']
    exact halike' k' hk'

theorem bind (hm : Ends I E m j Q)
    (hf : ∀ a k, Marks.After I j.notes.mark k.notes.mark → Q a k.notes.mark → Ends I E (f a) k R) :
    Ends I E (m >>= f) j R := by
  obtain ⟨hafter, hends, halike⟩ := hm
  rcases hexec : exec m j with ⟨fault | a, j'⟩
  all_goals rw [hexec] at hafter hends halike
  · exact after_end hexec hafter halike (fun hl => by rw [exec_bind, hl]; rfl)
      (throw (e := fault) hafter.keeps hends)
  · exact after_end hexec hafter halike (fun hl => by rw [exec_bind, hl]) (hf a j' hafter hends)

theorem map {g : α → β} (hm : Ends I E m j fun a n => R (g a) n) : Ends I E (g <$> m) j R := by
  rw [map_eq_pure_bind]
  exact hm.bind fun a k hk ha => pure hk.keeps ha

theorem tryCatch {h : Fault → Render α} (hm : Ends I E' m j Q)
    (hh : ∀ e k, Marks.After I j.notes.mark k.notes.mark → E' e → Ends I E (h e) k Q) :
    Ends I E (tryCatch m h) j Q := by
  obtain ⟨hafter, hends, halike⟩ := hm
  rcases hexec : exec m j with ⟨fault | a, j'⟩
  all_goals rw [hexec] at hafter hends halike
  · exact after_end hexec hafter halike (fun hl => by rw [exec_tryCatch, hl]) (hh fault j' hafter hends)
  · exact after_end hexec hafter halike (fun hl => by rw [exec_tryCatch, hl]; rfl)
      (pure (a := a) hafter.keeps hends)

theorem mapM {g : α → Render β} {S : α → β → Marks → Prop} {l : List α} (hj : I j.notes.mark)
    (hS : ∀ a b n n', Marks.After I n n' → S a b n → S a b n')
    (hg : ∀ a ∈ l, ∀ k, Marks.After I j.notes.mark k.notes.mark → Ends I E (g a) k (S a)) :
    Ends I E (l.mapM g) j fun bs n => List.Forall₂ (S · · n) l bs := by
  induction l generalizing j with
  | nil => exact pure hj .nil
  | cons a l ih =>
    rw [List.mapM_cons]
    refine (hg a (.head _) j (.refl hj)).bind fun b k hk hb => ?_
    refine (ih hk.keeps fun c hc k' hk' => hg c (List.mem_cons_of_mem a hc) k'
      (hk.trans hk')).bind fun bs k' hk' hbs => ?_
    exact pure hk'.keeps (.cons (hS a b _ _ hk' hb) hbs)

/-! ### The steps of actions -/

theorem note {g : Notes → Notes} {Q : Unit → Marks → Prop}
    (h : Marks.After I j.notes.mark (g j.notes).mark) (hQ : Q () (g j.notes).mark)
    (halike : ∀ k : Journal, Marks.Ahead I j.notes.mark k.notes.mark →
      Marks.Ahead I (g j.notes).mark (g k.notes).mark) : Ends I E (note g) j Q :=
  of_ok rfl h hQ fun k hk => ⟨_, rfl, halike k hk⟩

theorem touch {Q : Unit → Marks → Prop} (code : Int) (hj : I j.notes.mark) (hQ : Q () j.notes.mark) :
    Ends I E (touch code) j Q :=
  note (.refl hj) hQ fun _ hk => hk

theorem use {Q : Unit → Marks → Prop} (type : ValueType) (hj : I j.notes.mark)
    (hQ : Q () j.notes.mark) : Ends I E (use type) j Q :=
  touch _ hj hQ

theorem useThen {Q : α → Marks → Prop} {type : ValueType} {f : Unit → Render α}
    (hj : I j.notes.mark) (hf : ∀ k : Journal, Marks.After I j.notes.mark k.notes.mark →
      Ends I E (f ()) k Q) : Ends I E (Render.use type >>= f) j Q :=
  .bind (use (Q := fun _ _ => True) type hj trivial) fun _ k hk _ => hf k hk

theorem log {Q : Unit → Marks → Prop} (e : Event) (hj : I j.notes.mark) (hQ : Q () j.notes.mark) :
    Ends I E (log e) j Q :=
  of_ok rfl (.refl hj) hQ fun _ hk => ⟨_, rfl, hk⟩

theorem ofCause {e : Except Cause α} (hj : I j.notes.mark)
    (hE : ∀ cause, e = .error cause → E (.failure ⟨cause, none⟩))
    (hQ : ∀ a, e = .ok a → Q a j.notes.mark) : Ends I E (ofCause e) j Q := by
  cases e with
  | ok a => exact pure hj (hQ a rfl)
  | error cause => exact throw hj (hE cause rfl)

theorem ofConversion {e : Except ConversionFault α} (hj : I j.notes.mark)
    (hE : ∀ fault, e = .error fault → E (.conversion fault))
    (hQ : ∀ a, e = .ok a → Q a j.notes.mark) : Ends I E (ofConversion e) j Q := by
  cases e with
  | ok a => exact pure hj (hQ a rfl)
  | error fault => exact throw hj (hE fault rfl)

theorem ofFault {e : Except Fault α} (hj : I j.notes.mark) (hE : ∀ fault, e = .error fault → E fault)
    (hQ : ∀ a, e = .ok a → Q a j.notes.mark) : Ends I E (ofFault e) j Q := by
  cases e with
  | ok a => exact pure hj (hQ a rfl)
  | error fault => exact throw hj (hE fault rfl)

theorem typeOf {t : Tree} {Q : ValueType → Marks → Prop} (hj : I j.notes.mark)
    (ht : Marks.Typed j.notes.mark t)
    (hQ : ∀ type, (j.notes.mark t.id).type = some type → Q type j.notes.mark) :
    Ends I E (typeOf t) j Q := by
  obtain ⟨type, htype⟩ := Option.isSome_iff_exists.1 ht
  have hexec : ∀ l : Journal, l.notes.mark t.id = j.notes.mark t.id →
      exec (Render.typeOf t) l = (.ok type, l) := by
    intro l hl
    rw [Render.typeOf, exec_bind]
    simp only [exec_notes, Notes.type?_eq_of_mark (hl ▸ htype)]
    rfl
  exact of_ok (hexec j rfl) (.refl hj) (hQ type htype) fun k hk =>
    ⟨k, hexec k (hk.eq_of_typed ht), hk⟩

theorem ownTypeOf {t : Tree} {Q : ValueType → Marks → Prop} (hj : I j.notes.mark)
    (ht : Marks.Typed j.notes.mark t)
    (hQ : ∀ type, (j.notes.mark t.id).own.or (j.notes.mark t.id).type = some type →
      Q type j.notes.mark) : Ends I E (ownTypeOf t) j Q := by
  have hsome : ((j.notes.mark t.id).own.or (j.notes.mark t.id).type).isSome := by
    rw [Option.isSome_or]
    exact Bool.or_eq_true_iff.2 (.inr ht)
  obtain ⟨type, htype⟩ := Option.isSome_iff_exists.1 hsome
  have hexec : ∀ l : Journal, l.notes.mark t.id = j.notes.mark t.id →
      exec (Render.ownTypeOf t) l = (.ok type, l) := by
    intro l hl
    rw [Render.ownTypeOf, exec_bind]
    simp only [exec_notes, Notes.ownType?_eq_of_mark (hl ▸ htype)]
    rfl
  exact of_ok (hexec j rfl) (.refl hj) (hQ type htype) fun k hk =>
    ⟨k, hexec k (hk.eq_of_typed ht), hk⟩

end Ends

end Render

end QueryScribe
