import QueryScribe.Proofs.Compiling

/-!
# Types that numbers are written as

Only numbers are ever written as another type, and only as a type of numbers: whatever has a type of its
own in the notes also has a type, and both are types of numbers (`Notes.NumericCasts`). Notes that are
coherent are of this kind (`Coherent.numericCasts`), so it holds at the end of every run.

That it holds all the way is seen by watching a run. A renderer that is watched looks at the notes before
and after each node it writes, at every level, and ends in an alarm as soon as they are not of this kind
(`Renderer.watching`). The alarm is a fault that nothing handles. A watched renderer still writes its nodes
as it should (`Renderer.visits_watching`), so there is no alarm.
-/

namespace QueryScribe

open Render (Ends exec)

/-- Each node that was written as another type than its own has a type, and both are types of numbers. -/
def Notes.NumericCasts (n : Notes) : Prop :=
  ∀ e ∈ n.ownTypes.toList, e.2.isNumeric = true ∧ n.types[e.1]?.any ValueType.isNumeric = true

instance (n : Notes) : Decidable n.NumericCasts := inferInstanceAs (Decidable (∀ e ∈ _, _ ∧ _))

/-- The mark of a node that was written as another type, if it was, has types of numbers only. -/
def Mark.IsNumericCast (m : Mark) : Prop :=
  ∀ own, m.own = some own → own.isNumeric = true ∧ m.type.any ValueType.isNumeric = true

theorem Notes.numericCasts_iff {n : Notes} : n.NumericCasts ↔ ∀ i, (n.mark i).IsNumericCast := by
  constructor
  · intro h i own hown
    exact h (i, own) (Std.TreeMap.mem_toList_iff_getElem?_eq_some.2 hown)
  · intro h e he
    exact h e.1 e.2 (Std.TreeMap.mem_toList_iff_getElem?_eq_some.1 he)

theorem Tree.Fits.isNumericCast {t : Tree} {m : Mark} (h : t.Fits m) : m.IsNumericCast := by
  rcases h with rfl | rfl | ⟨hnatural, type, htype, rfl⟩
  · exact nofun
  · exact nofun
  · rintro own ⟨⟩
    exact ⟨hnatural, htype⟩

theorem Coherent.numericCasts {target : Target} {root : Tree} {n : Notes} (h : Coherent target root n.mark) :
    n.NumericCasts := by
  refine Notes.numericCasts_iff.2 fun i => ?_
  by_cases hi : ∃ s ∈ root.nodes, s.id = i
  · obtain ⟨s, hs, rfl⟩ := hi
    exact (h.fits s hs).isNumericCast
  · rw [h.outside i fun s hs hid => hi ⟨s, hs, hid⟩]
    exact nofun

theorem Marks.Ahead.numericCasts {I : Marks → Prop} {n m : Notes} (h : Marks.Ahead I n.mark m.mark)
    (hn : n.NumericCasts) : m.NumericCasts := by
  refine Notes.numericCasts_iff.2 fun i => ?_
  rcases h i with heq | ⟨-, type, heq, -⟩
  · rw [heq]
    exact Notes.numericCasts_iff.1 hn i
  · rw [heq]
    exact nofun

/-! ## Watched runs -/

/-- An action that ends in an alarm if the notes before or after it show a cast outside of the numbers. -/
def Render.watch {α : Type} (alarm : Fault) (m : Render α) : Render α := ExceptT.mk fun j =>
  let (result, k) := exec m j
  if j.notes.NumericCasts ∧ k.notes.NumericCasts then (result, k) else (.error alarm, k)

/-- A renderer as `Renderer.within` that is watched at each node. -/
def Renderer.watching (alarm : Fault) (target : Target) (source : Source) : Nat → Renderer
  | 0 => within target source 0
  | n + 1 => ⟨target, source, fun idiomatic t => .watch alarm
      (if t.height ≤ n then (watching alarm target source n).visit idiomatic t
      else (watching alarm target source n).step idiomatic t)⟩

variable {alarm : Fault} {target : Target} {source : Source} {root t : Tree} {b : Bool}

theorem Render.exec_watch {α : Type} {m : Render α} {j : Journal} (hj : j.notes.NumericCasts)
    (hk : (exec m j).2.notes.NumericCasts) : exec (m.watch alarm) j = exec m j :=
  if_pos ⟨hj, hk⟩

/-- From coherent notes a watched action ends as it does otherwise. -/
theorem Render.Ends.watch {α : Type} {E : Fault → Prop} {m : Render α} {j : Journal}
    {Q : α → Marks → Prop} (h : Ends (Coherent target root) E m j Q)
    (hj : Coherent target root j.notes.mark) : Ends (Coherent target root) E (m.watch alarm) j Q := by
  obtain ⟨hafter, hends, halike⟩ := h
  have hkeeps := hafter.keeps.numericCasts
  refine ⟨?_, ?_, ?_⟩
  all_goals rw [exec_watch hj.numericCasts hkeeps]
  · exact hafter
  · exact hends
  · intro k hk
    obtain ⟨k', hexec, hk'⟩ := halike k hk
    refine ⟨k', ?_, hk'⟩
    rw [exec_watch (hk.numericCasts hj.numericCasts), hexec]
    rw [hexec]
    exact hk'.numericCasts hkeeps

namespace Renderer

theorem target_watching (n : Nat) : (watching alarm target source n).target = target := by
  cases n <;> rfl

theorem setting_watching (n : Nat) :
    (watching alarm target source n).setting = ⟨target, source.names⟩ := by
  cases n <;> rfl

theorem Writes.watch {r : Renderer} {m : Render String} (h : r.Writes root b t m) :
    r.Writes root b t (m.watch alarm) :=
  fun E j hE hj => (h E j hE hj).watch hj

/-- Watched renderers write the nodes of a tree that was read as they should. -/
theorem visits_watching (hroot : root.Formed) {n : Nat} (ht : t ∈ root.nodes) (hvisited : t.isVisited)
    (hheight : t.height ≤ n) (b : Bool) : (watching alarm target source n).Visits root b t := by
  induction n generalizing t b with
  | zero =>
    cases t with
    | leaf => cases hvisited
    | node => exact absurd hheight (Nat.not_succ_le_zero _)
  | succ n ih =>
    have hwrites : (watching alarm target source n).Writes root b t
        ((watching alarm target source (n + 1)).visit b t) :=
      (writes_succ hroot (fun s hs hs' hn b => ih hs hs' hn b) ht hvisited hheight b).watch
    unfold Visits
    unfold Writes at hwrites ⊢
    rwa [setting_watching, target_watching] at hwrites ⊢

end Renderer

/-- Writes a node of a source for a target, watched. -/
def renderWatched (alarm : Fault) (target : Target) (source : Source) (b : Bool) (t : Tree) : Render String :=
  (Renderer.watching alarm target source t.height).visit b t

theorem ends_renderWatched (alarm : Fault) (source : Source) {text : String}
    (h : parse text = .ok root) (b : Bool) {E : Fault → Prop}
    (hE : ∀ fault, Expected ⟨target, source.names⟩ root fault → E fault) :
    Ends (Coherent target root) E (renderWatched alarm target source b root) {} fun _ _ => True := by
  obtain ⟨n, hn⟩ : ∃ n, root.height = n + 1 := by
    cases root with
    | leaf => exact ⟨_, rfl⟩
    | node => exact ⟨_, rfl⟩
  have hvisit : renderWatched alarm target source b root =
      .watch alarm ((Renderer.watching alarm target source n).step b root) := by
    rw [renderWatched, hn]
    exact congrArg (Render.watch alarm) (if_neg (by omega))
  have hends := Renderer.ends_program (r := Renderer.watching alarm target source n) h (b := b) (E := E)
    (fun s hs hvisited hheight => Renderer.visits_watching (Tree.formed_of_parse h) hs hvisited (by omega) b)
    (fun fault hfault _ => hE fault (by rwa [Renderer.setting_watching] at hfault))
  rw [Renderer.target_watching] at hends
  rw [hvisit]
  exact (hends.watch (.blank target root)).imp fun _ _ _ _ => trivial

/-- Casts stay inside the numbers. Whatever is compiled, for whatever target and in either style, the
notes that are left show casts of numbers to types of numbers only, whether the compile gives a text or
fails. This also holds at every node on the way: if the notes are looked at before and after each node that
is written, there is no alarm, whatever alarm is agreed on that the target does not give by itself. -/
theorem casts_stay_numeric {text : String} (hparse : parse text = .ok root) (target : Target)
    (source : Source) (b : Bool) {label : String}
    (hlabel : ∀ type literal, target.writeLiteral type literal ≠ .error (.malformed label)) :
    (exec (render target source b root) {}).2.notes.NumericCasts ∧
      (exec (renderWatched (.malformed label) target source b root) {}).1 ≠
        .error (.malformed label) := by
  constructor
  · have hends := ends_render hparse target source b (E := fun _ => True) fun _ _ _ => trivial
    exact hends.after.keeps.numericCasts
  · intro halarm
    have hends := (ends_renderWatched (.malformed label) source hparse b
      (E := Expected ⟨target, source.names⟩ root) fun _ h => h).ends
    rw [halarm] at hends
    cases hends with
    | literal hwrite _ => exact hlabel _ _ hwrite

/-- A number is written as a double before the compile fails, and the notes that are left tell of it. -/
theorem casts_stay_numeric_of_failure :
    ∃ root ∈ (parse "float(-7)\nx").toOption,
      let left := exec (render .java ⟨normalize "float(-7)\nx", default⟩ true root) {}
      left.1.isOk = false ∧ left.2.notes.ownTypes.toList.map (·.2) ≠ [] ∧ left.2.notes.NumericCasts := by
  have h : ∃ root ∈ (parse "float(-7)\nx").toOption,
      let left := exec (render .java ⟨normalize "float(-7)\nx", default⟩ true root) {}
      left.1.isOk = false ∧ left.2.notes.ownTypes.toList.map (·.2) ≠ [] := by
    decide +kernel
  obtain ⟨root, hroot, hfault, hcasts⟩ := h
  have hlabel : ∀ type literal, Target.java.writeLiteral type literal ≠ .error (.malformed "") := by
    intro type literal hfault
    rcases Target.fault_of_writeLiteral List.mem_cons_self hfault with ⟨_, h, -⟩ | ⟨-, h, -⟩
    · cases h
    · cases h
  exact ⟨root, hroot, hfault, hcasts,
    (casts_stay_numeric (eq_ok_of_mem_toOption hroot) .java _ true hlabel).1⟩

end QueryScribe
