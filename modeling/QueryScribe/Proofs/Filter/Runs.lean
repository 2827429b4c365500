import QueryScribe.Proofs.Locality.Build

/-!
# Runs that give a query

A filter is built by actions that follow each other, and it is known only where all of them succeed.
`Build.Gives m j a j'` says that an action gives a value; it is taken apart along the action. Since
all actions keep to regions, a run that gives a value can be moved to any journal that agrees with
its own on the region, and leaves what was noted elsewhere.
-/

namespace QueryScribe

namespace Build

variable {α β : Type}

/-- The action gives a value from a journal, and leaves another journal. -/
def Gives (m : Build α) (j : Journal) (a : α) (j' : Journal) : Prop :=
  Render.exec m.run j = (.ok (.ok a), j')

variable {m : Build α} {f : α → Build β} {j j' k k' : Journal} {U V : Set Nat}

theorem exists_gives {a : α}
    (h : a ∈ (Render.exec m.run j).1.toOption.bind Except.toOption) : ∃ j', Gives m j a j' := by
  obtain ⟨e, he, ha⟩ := Option.bind_eq_some_iff.1 h
  obtain rfl := eq_ok_of_mem_toOption ha
  exact ⟨_, Prod.ext (eq_ok_of_mem_toOption he) rfl⟩

@[simp]
theorem gives_pure {a c : α} : Gives (pure a) j c j' ↔ a = c ∧ j = j' := by
  unfold Gives
  change (Except.ok (Except.ok a), j) = (Except.ok (Except.ok c), j') ↔ _
  simp

@[simp]
theorem not_gives_refuse {reason : Refusal} {a : α} : ¬ Gives (Builder.refuse reason) j a j' :=
  fun h => nomatch h

@[simp]
theorem gives_bind {c : β} :
    Gives (m >>= f) j c k ↔ ∃ a j', Gives m j a j' ∧ Gives (f a) j' c k := by
  unfold Gives
  rw [ExceptT.run_bind, Render.exec_bind]
  rcases Render.exec m.run j with ⟨fault | (reason | a), j'⟩
  · simp
  · simp [Render.exec_pure]
  · constructor
    · exact fun h => ⟨a, j', rfl, h⟩
    · rintro ⟨a', j'', h, h'⟩
      cases h
      exact h'

theorem gives_lift {m : Render α} {a : α} :
    Gives (liftM m) j a j' ↔ Render.exec m j = (.ok a, j') := by
  change Render.exec (Except.ok <$> m) j = _ ↔ _
  rw [map_eq_pure_bind, Render.exec_bind]
  rcases Render.exec m j with ⟨fault | a', j''⟩
  · simp
  · simp

@[simp]
theorem gives_ofRefusal {e : Except Refusal α} {a : α} :
    Gives (Builder.ofRefusal e) j a j' ↔ e = .ok a ∧ j = j' := by
  cases e with
  | ok a' => simp [Builder.ofRefusal]
  | error reason => simp [Builder.ofRefusal]

theorem Gives.agreeOn {a : α} (h : Gives m k a k') (hm : KeepsTo U m) (hUV : Disjoint U V)
    (hjk : j.notes.AgreeOn V k.notes) : j.notes.AgreeOn V k'.notes := by
  intro i hi
  have hframe := hm.frame k i (Set.disjoint_right.1 hUV hi)
  rw [h] at hframe
  exact (hjk i hi).trans hframe.symm

theorem Gives.congr {a : α} (h : Gives m k a k') (hm : KeepsTo U m)
    (hjk : j.notes.AgreeOn U k.notes) : ∃ j', Gives m j a j' ∧ j'.notes.AgreeOn U k'.notes := by
  obtain ⟨_, hrecords⟩ := hm.congr k
  obtain ⟨hresult, hagree, -⟩ := hrecords j hjk.symm
  unfold Gives at h
  rw [h] at hresult hagree
  exact ⟨(Render.exec m.run j).2, Prod.ext hresult rfl, hagree.symm⟩

/-! ## What actions return -/

/-- From every journal that agrees with a given one on a region, the action gives only values with a
property, and the notes outside the region stay. -/
def Returns (j : Journal) (U : Set Nat) (m : Build α) (Q : α → Prop) : Prop :=
  ∀ ⦃k a k'⦄, j.notes.AgreeOn U k.notes → Gives m k a k' → Q a ∧ k.notes.AgreeOn Uᶜ k'.notes

variable {Q : α → Prop} {R : β → Prop}

theorem Returns.pure {a : α} (h : Q a) : Returns j U (pure a) Q := by
  intro k c k' _ hc
  obtain ⟨rfl, rfl⟩ := gives_pure.1 hc
  exact ⟨h, .refl _ _⟩

theorem Returns.refuse (reason : Refusal) : Returns j U (Builder.refuse reason) Q :=
  fun _ _ _ _ h => absurd h not_gives_refuse

theorem Returns.ofRefusal (e : Except Refusal α) :
    Returns j U (Builder.ofRefusal e) fun a => e = .ok a := by
  intro k c k' _ hc
  obtain ⟨h, rfl⟩ := gives_ofRefusal.1 hc
  exact ⟨h, .refl _ _⟩

/-- Two actions that keep to regions apart from each other do not see each other. -/
theorem Returns.bind (hm : Returns j U m Q) (hf : ∀ a, Q a → Returns j V (f a) R)
    (hUV : Disjoint U V) : Returns j (U ∪ V) (m >>= f) R := by
  intro k c k' hk h
  obtain ⟨a, k₁, ha, hc⟩ := gives_bind.1 h
  obtain ⟨hQ, hfirst⟩ := hm (hk.mono Set.subset_union_left) ha
  have hV : j.notes.AgreeOn V k₁.notes := fun i hi =>
    (hk i (.inr hi)).trans (hfirst i (Set.disjoint_right.1 hUV hi))
  obtain ⟨hR, hsecond⟩ := hf a hQ hV hc
  exact ⟨hR, fun i hi => (hfirst i fun h => hi (.inl h)).trans (hsecond i fun h => hi (.inr h))⟩

theorem Returns.mono (h : Returns j U m Q) (hUV : U ⊆ V) : Returns j V m Q := by
  intro k a k' hk ha
  obtain ⟨hQ, hframe⟩ := h (hk.mono hUV) ha
  exact ⟨hQ, hframe.mono (Set.compl_subset_compl.2 hUV)⟩

theorem Returns.imp (h : Returns j U m Q) {Q' : α → Prop} (hQ : ∀ a, Q a → Q' a) :
    Returns j U m Q' :=
  fun _ _ _ hk ha => (h hk ha).imp_left (hQ _)

/-- An action after which nothing of the notes is seen. -/
theorem Returns.andThen (hm : Returns j U m Q) (hf : ∀ a, Q a → Returns j ∅ (f a) R) :
    Returns j U (m >>= f) R :=
  Set.union_empty U ▸ hm.bind hf (Set.disjoint_empty U)

/-- An action after one that sees nothing of the notes. -/
theorem Returns.first (hm : Returns j ∅ m Q) (hf : ∀ a, Q a → Returns j U (f a) R) :
    Returns j U (m >>= f) R :=
  Set.empty_union U ▸ hm.bind hf (Set.empty_disjoint U)

end Build

namespace Builder

open Build (Gives)

variable {b : Builder} {j j' : Journal} {t : Tree}

variable {key : String} {c : Call}

theorem gives_call {family : Family} {args : List Call} (h : Gives (b.call family key args) j c j') :
    ∃ helper, b.helpers.find? family key = some helper ∧ c = .helper helper args := by
  unfold call at h
  split at h
  · rename_i helper hfind
    simp only [Build.gives_bind, Build.gives_pure] at h
    obtain ⟨_, _, -, rfl, -⟩ := h
    exact ⟨helper, hfind, rfl⟩
  · exact absurd h Build.not_gives_refuse

@[simp]
theorem gives_key : Gives (Builder.key t) j key j' ↔
    t.stringKey? = some key ∧ j = j' := by
  unfold Builder.key
  split
  · rename_i hkey
    simp [hkey]
  · rename_i hkey
    simp [hkey]

theorem gives_plain : Gives (b.plain t) j c j' ↔
    ∃ text, Render.exec (b.renderer.plain t) j = (.ok text, j') ∧ c = .text text := by
  unfold Builder.plain
  simp only [Build.gives_bind, Build.gives_pure]
  constructor
  · rintro ⟨text, _, h, rfl, rfl⟩
    exact ⟨text, Build.gives_lift.1 h, rfl⟩
  · rintro ⟨text, h, rfl⟩
    exact ⟨text, j', Build.gives_lift.2 h, rfl, rfl⟩

theorem gives_plain_of_field (h : Gives (b.field t) j c j') : Gives (b.plain t) j c j' := by
  unfold Builder.field Builder.key at h
  split at h
  · exact h
  · exact absurd h Build.not_gives_refuse

@[simp]
theorem gives_twoItems {s : Shape} {pair : Shape × Shape} : Gives (twoItems s) j pair j' ↔
    s.items = [pair.1, pair.2] ∧ j = j' := by
  unfold twoItems
  split
  · rename_i first second hitems
    simp [hitems, Prod.ext_iff]
  · rename_i hitems
    simp only [Build.not_gives_refuse, false_iff, not_and]
    exact fun h => absurd h (hitems _ _)

@[simp]
theorem gives_member {α : Type} {members : List (String × α)} {a : α} :
    Gives (member key members) j a j' ↔ members.lookup key = some a ∧ j = j' := by
  unfold member
  split
  · rename_i hvalue
    simp [hvalue]
  · rename_i hvalue
    simp [hvalue]

end Builder

end QueryScribe
