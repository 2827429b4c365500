import QueryScribe.Proofs.Marks
import QueryScribe.Proofs.Recording
import QueryScribe.Proofs.Relating.Rendering

/-!
# Actions that keep to a region

What is written of a node depends on the notes about the node and those below it only, and nothing
else is noted. `Render.KeepsTo U m` says this of an action `m` and a set `U` of numbers, and it says
it of two runs at once: started from notes that agree on `U`, both give the same, leave notes that
agree on `U`, and record the same uses, whatever else the notes hold. The log is never read, nor is
the style in the journal, which is left as it was: an action for a style goes the same way as it does
after that style was put into the journal (`inStyle_eq`). Nothing that was noted before is lost.

The property is kept by sequencing, so an action keeps to a region as soon as all its parts do. The
lemmas of this module are the steps from which all actions are built.
-/

namespace QueryScribe

/-- A journal in a style. -/
def Journal.inStyle (j : Journal) (b : Bool) : Journal := { j with idiomatic := b }

namespace Render

variable {α β : Type}

/-! ## Runs -/

/-- The result of an action from a journal, and the journal it leaves. -/
def exec (m : Render α) (j : Journal) : Except Fault α × Journal := (m.run.run j).run

@[simp]
theorem exec_pure (a : α) (j : Journal) : exec (pure a) j = (.ok a, j) := rfl

@[simp]
theorem exec_throw (e : Fault) (j : Journal) : exec (throw e : Render α) j = (.error e, j) := rfl

theorem exec_bind (m : Render α) (f : α → Render β) (j : Journal) :
    exec (m >>= f) j = match exec m j with
      | (.ok a, j') => exec (f a) j'
      | (.error e, j') => (.error e, j') := by
  unfold exec
  rw [ExceptT.run_bind, StateT.run_bind, Id.run_bind]
  rcases (m.run.run j).run with ⟨_ | a, j'⟩ <;> rfl

theorem exec_tryCatch (m : Render α) (h : Fault → Render α) (j : Journal) :
    exec (tryCatch m h) j = match exec m j with
      | (.ok a, j') => (.ok a, j')
      | (.error e, j') => exec (h e) j' := by
  unfold exec
  rw [ExceptT.run_tryCatch, StateT.run_bind, Id.run_bind]
  rcases (m.run.run j).run with ⟨_ | a, j'⟩ <;> rfl

@[simp]
theorem exec_note (f : Notes → Notes) (j : Journal) :
    exec (note f) j = (.ok (), { j with notes := f j.notes }) := rfl

@[simp]
theorem exec_notes (j : Journal) : exec notes j = (.ok j.notes, j) := rfl

theorem exec_tryFinally (m : Render α) (f : Journal → Journal) (j : Journal) :
    exec (tryFinally m (modify f)) j = ((exec m j).1, f (exec m j).2) := by
  -- Only the end of the action from this journal matters.
  have h : exec (tryFinally m (modify f)) j =
      exec (tryFinally (fun _ => exec m j) (modify f)) j := rfl
  rw [h]
  rcases exec m j with ⟨_ | a, j'⟩ <;> rfl

theorem exec_inStyle (b : Bool) (m : Render α) (j : Journal) :
    exec (inStyle b m) j =
      ((exec m (j.inStyle b)).1, (exec m (j.inStyle b)).2.inStyle j.idiomatic) :=
  exec_tryFinally m _ (j.inStyle b)

theorem exec_typeOf (t : Tree) (j : Journal) :
    exec (typeOf t) j = (match j.notes.type? t with
      | some type => .ok type
      | none => .error (.failure ⟨.untypedNode t.label, none⟩), j) := by
  rw [typeOf, exec_bind, exec_notes]
  dsimp only
  cases j.notes.type? t <;> rfl

theorem exec_ownTypeOf (t : Tree) (j : Journal) :
    exec (ownTypeOf t) j = (match j.notes.ownType? t with
      | some type => .ok type
      | none => .error (.failure ⟨.untypedNode t.label, none⟩), j) := by
  rw [ownTypeOf, exec_bind, exec_notes]
  dsimp only
  cases j.notes.ownType? t <;> rfl

/-! ## Keeping to a region -/

/-- An action that notes things under the numbers of a region only, and neither looks at other
notes nor at what was recorded nor at the style of the journal. -/
structure KeepsTo (U : Set Nat) (m : Render α) : Prop where
  /-- Outside of the region nothing changes. -/
  frame : ∀ (j : Journal), ∀ i ∉ U, (exec m j).2.notes.mark i = j.notes.mark i
  /-- Nothing that was noted is lost. -/
  kept : ∀ (j : Journal) (i : Nat), (j.notes.mark i).Kept ((exec m j).2.notes.mark i)
  /-- From notes that agree on the region the action does the same. -/
  congr : ∀ (j : Journal), ∃ records : List Record, ∀ k : Journal, j.notes.AgreeOn U k.notes →
    (exec m k).1 = (exec m j).1 ∧ (exec m j).2.notes.AgreeOn U (exec m k).2.notes ∧
      (exec m k).2.notes.usage = k.notes.usage.writeAll records
  /-- In another style the action does the same and leaves that style. -/
  style : ∀ (j : Journal) (b : Bool),
    exec m (j.inStyle b) = ((exec m j).1, (exec m j).2.inStyle b)

namespace KeepsTo

variable {U V : Set Nat} {m : Render α} {f : α → Render β}

theorem of_exec (a : Except Fault α) (records : List Record) (h : ∀ j, (exec m j).1 = a ∧
    (∀ i, (exec m j).2.notes.mark i = j.notes.mark i) ∧
      (exec m j).2.notes.usage = j.notes.usage.writeAll records)
    (hstyle : ∀ j b, exec m (j.inStyle b) = ((exec m j).1, (exec m j).2.inStyle b)) :
    KeepsTo U m where
  frame j i _ := (h j).2.1 i
  kept j i := by rw [(h j).2.1 i]; exact .refl _
  congr j := by
    refine ⟨records, fun k hjk => ⟨(h k).1.trans (h j).1.symm, fun i hi => ?_, (h k).2.2⟩⟩
    rw [(h j).2.1, (h k).2.1, hjk i hi]
  style := hstyle

theorem pure (a : α) : KeepsTo U (pure a : Render α) :=
  of_exec (.ok a) [] (fun _ => ⟨rfl, fun _ => rfl, rfl⟩) fun _ _ => rfl

theorem throw (e : Fault) : KeepsTo U (throw e : Render α) :=
  of_exec (.error e) [] (fun _ => ⟨rfl, fun _ => rfl, rfl⟩) fun _ _ => rfl

/-- An action that goes on by the end of another, be it a result or a fault, keeps to a region if
both do. -/
theorem andThen {m' : Render β} (next : Except Fault α → Render β) (hm : KeepsTo U m)
    (hnext : ∀ a, KeepsTo U (next a))
    (h : ∀ j, exec m' j = exec (next (exec m j).1) (exec m j).2) : KeepsTo U m' where
  frame j i hi := by
    rw [h]
    exact ((hnext _).frame _ i hi).trans (hm.frame j i hi)
  kept j i := by
    rw [h]
    exact (hm.kept j i).trans ((hnext _).kept _ i)
  congr j := by
    obtain ⟨records, hrecords⟩ := hm.congr j
    obtain ⟨more, hmore⟩ := (hnext (exec m j).1).congr (exec m j).2
    refine ⟨records ++ more, fun k hjk => ?_⟩
    obtain ⟨hresult, hagree, husage⟩ := hrecords k hjk
    obtain ⟨hresult', hagree', husage'⟩ := hmore (exec m k).2 hagree
    rw [h, h, hresult]
    exact ⟨hresult', hagree', by rw [husage', husage, Usage.writeAll_append]⟩
  style j b := by rw [h, h, hm.style, (hnext _).style]

theorem bind (hm : KeepsTo U m) (hf : ∀ a, KeepsTo U (f a)) : KeepsTo U (m >>= f) := by
  refine andThen (fun e => MonadExcept.ofExcept e >>= f) hm (fun a => ?_) fun j => ?_
  · cases a with
    | ok a => exact hf a
    | error e => exact throw e
  · rw [exec_bind]
    rcases exec m j with ⟨e | a, j'⟩ <;> rfl

theorem sequential (U : Set Nat) : Sequential fun (α : Type) (m : Render α) => KeepsTo U m where
  pure := pure
  bind := bind

theorem tryCatch {h : Fault → Render α} (hm : KeepsTo U m) (hh : ∀ e, KeepsTo U (h e)) :
    KeepsTo U (tryCatch m h) := by
  refine andThen (fun e => MonadExcept.tryCatch (MonadExcept.ofExcept e) h) hm (fun a => ?_)
    fun j => ?_
  · cases a with
    | ok a => exact pure a
    | error e => exact hh e
  · rw [exec_tryCatch]
    rcases exec m j with ⟨e | a, j'⟩ <;> rfl

theorem mono (hm : KeepsTo U m) (hUV : U ⊆ V) : KeepsTo V m where
  frame j i hi := hm.frame j i fun hU => hi (hUV hU)
  kept := hm.kept
  congr j := by
    obtain ⟨records, hrecords⟩ := hm.congr j
    refine ⟨records, fun k hjk => ?_⟩
    obtain ⟨hresult, hagree, husage⟩ := hrecords k (hjk.mono hUV)
    refine ⟨hresult, fun i hi => ?_, husage⟩
    by_cases hU : i ∈ U
    · exact hagree i hU
    · rw [hm.frame j i hU, hm.frame k i hU, hjk i hi]
  style := hm.style

theorem idiomatic_eq (hm : KeepsTo U m) (j : Journal) :
    (exec m j).2.idiomatic = j.idiomatic := by
  have h := congrArg (·.2.idiomatic) (hm.style j j.idiomatic)
  exact h

/-- An action for a style goes as in a journal of that style. -/
theorem inStyle_eq {f : Bool → Render α} {b : Bool} (hf : KeepsTo U (f b)) :
    inStyle b (do f (← idiomatic)) = f b := by
  refine funext fun j => (exec_inStyle b _ j).trans ?_
  have hread : exec (do f (← idiomatic)) (j.inStyle b) = exec (f b) (j.inStyle b) := rfl
  rw [hread, hf.style]
  exact (hf.style j j.idiomatic).symm

theorem eq_of_notes_eq (hm : KeepsTo U m) {j k : Journal} (h : j.notes = k.notes) :
    (exec m j).1 = (exec m k).1 ∧ (exec m j).2.notes.usage = (exec m k).2.notes.usage ∧
      ∀ i, (exec m j).2.notes.mark i = (exec m k).2.notes.mark i := by
  obtain ⟨records, hrecords⟩ := hm.congr j
  obtain ⟨hresult, hagree, husage⟩ := hrecords k (h ▸ Notes.AgreeOn.refl U j.notes)
  refine ⟨hresult.symm, ?_, fun i => ?_⟩
  · rw [husage, (hrecords j (Notes.AgreeOn.refl U j.notes)).2.2, h]
  · by_cases hi : i ∈ U
    · exact hagree i hi
    · rw [hm.frame j i hi, hm.frame k i hi, h]

/-! ### The steps of actions -/

variable {t : Tree}

theorem setType (ht : t.region ⊆ U) (type : ValueType) : KeepsTo U (setType t type) where
  frame j i hi := by
    have hne : i ≠ t.id := fun h => hi (h ▸ ht t.id_mem_region)
    simp [Render.setType, Notes.mark_setType, hne]
  kept j i := by
    simp only [Render.setType, exec_note, Notes.mark_setType]
    split
    · exact Mark.kept_withType _ _
    · exact .refl _
  congr j := ⟨[], fun k hjk => ⟨rfl, hjk.setType t type, rfl⟩⟩
  style _ _ := rfl

theorem cast (ht : t.region ⊆ U) (type own : ValueType) :
    KeepsTo U (note (·.cast t type own)) where
  frame j i hi := by
    have hne : i ≠ t.id := fun h => hi (h ▸ ht t.id_mem_region)
    simp [Notes.mark_cast, hne]
  kept j i := by
    simp only [exec_note, Notes.mark_cast]
    split
    · exact Mark.kept_cast _ _ _
    · exact .refl _
  congr j := ⟨[], fun k hjk => ⟨rfl, hjk.cast t type own, rfl⟩⟩
  style _ _ := rfl

theorem touch (code : Int) : KeepsTo U (touch code) :=
  of_exec (.ok ()) [.touch code] (fun _ => ⟨rfl, fun _ => rfl, rfl⟩) fun _ _ => rfl

theorem use (type : ValueType) : KeepsTo U (use type) := touch type.code

theorem add (code : Int) (name : String) : KeepsTo U (note (·.add code name)) :=
  of_exec (.ok ()) [.add code name] (fun _ => ⟨rfl, fun _ => rfl, rfl⟩) fun _ _ => rfl

theorem log (e : Event) : KeepsTo U (log e) :=
  of_exec (.ok ()) [] (fun _ => ⟨rfl, fun _ => rfl, rfl⟩) fun _ _ => rfl

theorem fail (cause : Cause) : KeepsTo U (fail cause : Render α) := throw _

theorem malformed (t : Tree) : KeepsTo U (malformed t : Render α) := throw _

theorem lookup {g : Notes → Render α} (hg : ∀ n, KeepsTo U (g n))
    (h : ∀ n n' : Notes, n.AgreeOn U n' → g n = g n') : KeepsTo U (notes >>= g) where
  frame j i hi := by
    rw [exec_bind]
    exact (hg j.notes).frame j i hi
  kept j i := by
    rw [exec_bind]
    exact (hg j.notes).kept j i
  congr j := by
    obtain ⟨records, hrecords⟩ := (hg j.notes).congr j
    refine ⟨records, fun k hjk => ?_⟩
    rw [exec_bind, exec_bind]
    simp only [exec_notes, ← h j.notes k.notes hjk]
    exact hrecords k hjk
  style j b := by
    rw [exec_bind, exec_bind]
    exact (hg j.notes).style j b

theorem typeOf (ht : t.region ⊆ U) : KeepsTo U (typeOf t) := by
  refine lookup (fun n => ?_) fun n n' h => ?_
  · cases n.type? t with
    | some type => exact pure type
    | none => exact fail _
  · rw [(h.mono ht).type?_eq]

theorem ownTypeOf (ht : t.region ⊆ U) : KeepsTo U (ownTypeOf t) := by
  refine lookup (fun n => ?_) fun n n' h => ?_
  · cases n.ownType? t with
    | some type => exact pure type
    | none => exact fail _
  · rw [(h.mono ht).ownType?_eq]

end KeepsTo

end Render

namespace Build

variable {α β : Type}

/-- A building action that keeps to a region, whether it refuses or not. -/
def KeepsTo (U : Set Nat) (m : Build α) : Prop := Render.KeepsTo U m.run

namespace KeepsTo

variable {U V : Set Nat} {m : Build α} {f : α → Build β}

theorem pure (a : α) : KeepsTo U (pure a : Build α) :=
  Render.KeepsTo.pure (Except.ok a : Except Refusal α)

theorem refuse (reason : Refusal) : KeepsTo U (Builder.refuse reason : Build α) :=
  Render.KeepsTo.pure (Except.error reason : Except Refusal α)

theorem bind (hm : KeepsTo U m) (hf : ∀ a, KeepsTo U (f a)) : KeepsTo U (m >>= f) := by
  unfold KeepsTo
  rw [ExceptT.run_bind]
  refine Render.KeepsTo.bind hm fun a => ?_
  cases a with
  | ok a => exact hf a
  | error reason => exact Render.KeepsTo.pure _

theorem sequential (U : Set Nat) : Sequential fun (α : Type) (m : Build α) => KeepsTo U m where
  pure := pure
  bind := bind

theorem lift {m : Render α} (hm : Render.KeepsTo U m) : KeepsTo U (liftM m : Build α) :=
  (Render.KeepsTo.sequential U).map Except.ok hm

end KeepsTo

end Build

end QueryScribe
