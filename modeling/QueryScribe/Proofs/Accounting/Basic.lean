import QueryScribe.Proofs.Filter.Runs
import QueryScribe.Proofs.Rendering.Plain

/-!
# What building records

A query is a tree of calls, and each call of a helper is recorded when it is made. Its arguments are
made before it, so the helpers come in post-order (`Call.helpers`). `Build.Accounts` says that an
action records the helpers of the calls that it gives and no others, in this order, and that all
texts among the calls were written by the steps that write nodes.

An argument may be made long before the call that takes it. The property therefore has an account of
what was recorded before and has not yet gone into a call; an action has to balance the whole.
-/

namespace QueryScribe

open List

namespace Call

mutual

/-- The helpers of a query, those of the arguments before the one that is called. -/
def helpers : Call → List Helper
  | text _ => []
  | list items => helpersAll items
  | helper h args => helpersAll args ++ [h]
  | absent => []
  | option _ value => helpers value

/-- The helpers of queries. -/
def helpersAll : List Call → List Helper
  | [] => []
  | c :: cs => helpers c ++ helpersAll cs

end

mutual

/-- The texts in a query that were written as they are. -/
def texts : Call → List String
  | text written => [written]
  | list items => textsAll items
  | helper _ args => textsAll args
  | absent => []
  | option _ value => texts value

/-- The texts in queries. -/
def textsAll : List Call → List String
  | [] => []
  | c :: cs => texts c ++ textsAll cs

end

theorem helpersAll_append (cs ds : List Call) :
    helpersAll (cs ++ ds) = helpersAll cs ++ helpersAll ds := by
  induction cs with
  | nil => rfl
  | cons c cs ih => simp [helpersAll, ih]

theorem textsAll_append (cs ds : List Call) : textsAll (cs ++ ds) = textsAll cs ++ textsAll ds := by
  induction cs with
  | nil => rfl
  | cons c cs ih => simp [textsAll, ih]

/-- A text that was written in some way. -/
def IsText (W : String → Prop) (c : Call) : Prop := ∃ written, W written ∧ c = text written

/-- The helpers that some queries call, and texts in them that were all written in some way. -/
structure Balanced (W : String → Prop) (cs : List Call) (hs : List Helper) : Prop where
  helpers : helpersAll cs = hs
  texts : ∀ written ∈ textsAll cs, W written

namespace Balanced

variable {W : String → Prop} {cs ds : List Call} {c : Call} {hs hs' : List Helper}

theorem nil : Balanced W [] [] := ⟨rfl, fun _ h => nomatch h⟩

theorem append (hcs : Balanced W cs hs) (hds : Balanced W ds hs') :
    Balanced W (cs ++ ds) (hs ++ hs') := by
  refine ⟨by rw [helpersAll_append, hcs.helpers, hds.helpers], fun written h => ?_⟩
  rw [textsAll_append, mem_append] at h
  exact h.elim (hcs.texts written) (hds.texts written)

theorem text (h : c.IsText W) : Balanced W [c] [] := by
  obtain ⟨written, hwritten, rfl⟩ := h
  exact ⟨rfl, fun s hs => mem_singleton.1 hs ▸ hwritten⟩

theorem textAll (h : ∀ c ∈ cs, c.IsText W) : Balanced W cs [] := by
  induction cs with
  | nil => exact nil
  | cons c cs ih =>
    exact (text (h c (.head _))).append (ih fun d hd => h d (.tail _ hd))

theorem absent : Balanced W [.absent] [] := ⟨rfl, fun _ h => nomatch h⟩

theorem list (h : Balanced W cs hs) : Balanced W [.list cs] hs :=
  ⟨(append_nil _).trans h.helpers, fun s hs => h.texts s (append_nil (textsAll cs) ▸ hs)⟩

theorem helper (helper : Helper) (h : Balanced W cs hs) :
    Balanced W [.helper helper cs] (hs ++ [helper]) :=
  ⟨(append_nil _).trans (congrArg (· ++ [helper]) h.helpers),
    fun s hs => h.texts s (append_nil (textsAll cs) ▸ hs)⟩

theorem option (name : String) (h : Balanced W [c] hs) : Balanced W [.option name c] hs :=
  ⟨h.helpers, h.texts⟩

end Balanced

end Call

namespace Journal

/-- The names under the codes of the families are those of some helpers, after those that stood
there before. -/
def Records (j : Journal) (hs : List Helper) (j' : Journal) : Prop :=
  ∀ family : Family, j'.notes.usage.names family.code =
    j.notes.usage.names family.code ++ (hs.filter (·.family = family)).map (·.name)

variable {j j' j'' : Journal} {hs hs' : List Helper}

theorem records_nil (h : ∀ family : Family,
    j'.notes.usage.get? family.code = j.notes.usage.get? family.code) : j.Records [] j' :=
  fun family => by simp [Usage.names, h family]

theorem Records.append (h : j.Records hs j') (h' : j'.Records hs' j'') :
    j.Records (hs ++ hs') j'' :=
  fun family => by simp [h' family, h family]

end Journal

theorem Family.code_injective : Function.Injective Family.code := by
  intro f g h
  cases f <;> cases g <;> first | rfl | cases h

namespace Build

open Call (Balanced IsText)

variable {α β γ : Type} {W : String → Prop} {m : Build α} {f : α → Build β} {Q : α → Prop}
  {view : α → List Call} {view' : β → List Call} {prior : List Helper}

/-! ## Steps that record nothing -/

/-- An action that gives values with a property only and records nothing. -/
def Quiet (Q : α → Prop) (m : Build α) : Prop :=
  ∀ (j j' : Journal) (a : α), Gives m j a j' → j.Records [] j' ∧ Q a

namespace Quiet

theorem pure {a : α} (h : Q a) : Quiet Q (pure a) := by
  intro j j' a' h'
  obtain ⟨rfl, rfl⟩ := gives_pure.1 h'
  exact ⟨Journal.records_nil fun _ => rfl, h⟩

theorem refuse (reason : Refusal) : Quiet Q (Builder.refuse reason) :=
  fun _ _ _ h => absurd h not_gives_refuse

theorem bind {R : β → Prop} (hm : Quiet Q m) (hf : ∀ a, Q a → Quiet R (f a)) :
    Quiet R (m >>= f) := by
  intro j j' c h
  obtain ⟨a, k, ha, hc⟩ := gives_bind.1 h
  obtain ⟨hrecords, hQ⟩ := hm j k a ha
  obtain ⟨hrecords', hR⟩ := hf a hQ k j' c hc
  exact ⟨hrecords.append hrecords', hR⟩

theorem mono {R : α → Prop} (hm : Quiet Q m) (h : ∀ a, Q a → R a) : Quiet R m :=
  fun j j' a hgives => ⟨(hm j j' a hgives).1, h a (hm j j' a hgives).2⟩

theorem ofSilent (hm : m.run.Silent) : Quiet (fun _ => True) m := by
  intro j j' a h
  refine ⟨Journal.records_nil fun family => ?_, trivial⟩
  rw [← hm j family, h]

theorem lift {m : Render α} (hm : m.Silent) :
    Quiet (fun a => ∃ j, (m.exec j).1 = .ok a) (liftM m : Build α) := by
  intro j j' a h
  have hexec := gives_lift.1 h
  refine ⟨Journal.records_nil fun family => ?_, j, congrArg Prod.fst hexec⟩
  rw [← hm j family, hexec]

theorem mapM {g : γ → Build α} {l : List γ} (h : ∀ c ∈ l, Quiet Q (g c)) :
    Quiet (fun as => ∀ a ∈ as, Q a) (l.mapM g) := by
  induction l with
  | nil => exact pure fun _ h => nomatch h
  | cons c l ih =>
    rw [mapM_cons]
    refine bind (h c (.head _)) fun a ha => ?_
    refine bind (ih fun d hd => h d (.tail _ hd)) fun as has => ?_
    exact pure (forall_mem_cons.2 ⟨ha, has⟩)

theorem ofRefusal {e : Except Refusal α} (h : ∀ a, e = .ok a → Q a) :
    Quiet Q (Builder.ofRefusal e) := by
  cases e with
  | ok a => exact pure (h a rfl)
  | error reason => exact refuse reason

end Quiet

/-! ## Steps that record what they give -/

/-- An action that records, after what was recorded before, the helpers of the calls in what it
gives. -/
def Accounts (W : String → Prop) (view : α → List Call) (prior : List Helper) (m : Build α) : Prop :=
  ∀ (j j' : Journal) (a : α), Gives m j a j' →
    ∃ hs, j.Records hs j' ∧ Balanced W (view a) (prior ++ hs)

namespace Accounts

theorem pure {a : α} (h : Balanced W (view a) prior) : Accounts W view prior (pure a) := by
  intro j j' a' h'
  obtain ⟨rfl, rfl⟩ := gives_pure.1 h'
  exact ⟨[], Journal.records_nil fun _ => rfl, by rwa [append_nil]⟩

theorem refuse (reason : Refusal) : Accounts W view prior (Builder.refuse reason) :=
  fun _ _ _ h => absurd h not_gives_refuse

/-- An action may use the end of what was recorded before, and leave the rest to what follows. -/
theorem bindUsing (prior : List Helper) {used : List Helper} (hm : Accounts W view used m)
    (hf : ∀ a hs, Balanced W (view a) hs → Accounts W view' (prior ++ hs) (f a)) :
    Accounts W view' (prior ++ used) (m >>= f) := by
  intro j j' c h
  obtain ⟨a, k, ha, hc⟩ := gives_bind.1 h
  obtain ⟨hs, hrecords, hbalanced⟩ := hm j k a ha
  obtain ⟨hs', hrecords', hbalanced'⟩ := hf a (used ++ hs) hbalanced k j' c hc
  refine ⟨hs ++ hs', hrecords.append hrecords', ?_⟩
  simpa only [append_assoc] using hbalanced'

theorem bind (hm : Accounts W view [] m)
    (hf : ∀ a hs, Balanced W (view a) hs → Accounts W view' (prior ++ hs) (f a)) :
    Accounts W view' prior (m >>= f) :=
  append_nil prior ▸ bindUsing prior hm hf

theorem bindAll (hm : Accounts W view prior m)
    (hf : ∀ a hs, Balanced W (view a) hs → Accounts W view' hs (f a)) :
    Accounts W view' prior (m >>= f) :=
  bindUsing [] hm hf

theorem quietly (hm : Quiet Q m) (hf : ∀ a, Q a → Accounts W view' prior (f a)) :
    Accounts W view' prior (m >>= f) := by
  intro j j' c h
  obtain ⟨a, k, ha, hc⟩ := gives_bind.1 h
  obtain ⟨hrecords, hQ⟩ := hm j k a ha
  obtain ⟨hs, hrecords', hbalanced⟩ := hf a hQ k j' c hc
  exact ⟨hs, hrecords.append hrecords', hbalanced⟩

theorem ite {p : Prop} [Decidable p] {m' : Build α} (hm : Accounts W view prior m)
    (hm' : Accounts W view prior m') : Accounts W view prior (if p then m else m') := by
  split
  · exact hm
  · exact hm'

theorem text {m : Build Call} (hm : Quiet (IsText W) m) : Accounts W ([·]) [] m := by
  intro j j' c h
  obtain ⟨hrecords, hc⟩ := hm j j' c h
  exact ⟨[], hrecords, .text hc⟩

theorem flatMapM {g : γ → Build α} {l : List γ} (h : ∀ c ∈ l, Accounts W view [] (g c)) :
    Accounts W (fun as => as.flatMap view) [] (l.mapM g) := by
  induction l with
  | nil => exact pure .nil
  | cons c l ih =>
    rw [mapM_cons]
    refine bind (h c (.head _)) fun a hs ha => ?_
    refine bind (ih fun d hd => h d (.tail _ hd)) fun as hs' has => ?_
    exact pure (flatMap_cons ▸ ha.append has)

theorem mapM {g : γ → Build Call} {l : List γ} (h : ∀ c ∈ l, Accounts W ([·]) [] (g c)) :
    Accounts W id [] (l.mapM g) := by
  have hview : (id : List Call → List Call) = fun cs => cs.flatMap ([·]) :=
    funext fun cs => (flatMap_singleton' cs).symm
  exact hview ▸ flatMapM h

end Accounts

end Build

namespace Builder

open Build (Quiet Accounts Gives)
open Call (Balanced IsText)

variable {α β : Type} {b : Builder} {W : String → Prop} {prior : List Helper} {args : List Call}
  {t : Tree} {s : Shape}

theorem accounts_call (family : Family) (key : String) (h : Balanced W args prior) :
    Accounts W ([·]) prior (b.call family key args) := by
  intro j j' c hgives
  unfold call at hgives
  split at hgives
  · rename_i helper _
    obtain ⟨_, k, hnote, hpure⟩ := Build.gives_bind.1 hgives
    obtain ⟨rfl, rfl⟩ := Build.gives_pure.1 hpure
    obtain rfl : _ = k := congrArg Prod.snd (Build.gives_lift.1 hnote)
    refine ⟨[helper], fun family => ?_, h.helper helper⟩
    have hnames := Usage.names_write j.notes.usage (.add helper.family.code helper.name) family.code
    refine hnames.trans ?_
    by_cases heq : helper.family = family
    · simp [Record.name?, heq]
    · have hcode : helper.family.code ≠ family.code := fun h => heq (Family.code_injective h)
      simp [Record.name?, heq, hcode]
  · exact absurd hgives Build.not_gives_refuse

theorem accounts_list (h : Balanced W args prior) : Accounts W ([·]) prior (list args) := by
  exact Accounts.quietly (Quiet.lift (Render.silent_touch _)) fun _ _ => Accounts.pure h.list

/-- The steps of a builder that write nodes give texts that were written in some way, and record
nothing. -/
structure Writes (b : Builder) (W : String → Prop) : Prop where
  plain : ∀ t : Tree, Quiet (IsText W) (b.plain t)
  string : ∀ t : Tree, Quiet (IsText W) (b.string t)
  numeric : ∀ (type : ValueType) (t : Tree), Quiet (IsText W) (b.numeric type t)
  number : ∀ t : Tree, Quiet (fun _ => True) (b.number t)

/-! ## Values -/

theorem quiet_key (t : Tree) : Quiet (fun _ => True) (key t) := by
  unfold key
  split
  · exact .pure trivial
  · exact .refuse _

theorem quiet_field (hb : b.Writes W) (t : Tree) : Quiet (IsText W) (b.field t) := by
  intro j j' c h
  exact hb.plain t j j' c (gives_plain_of_field h)

theorem quiet_truth (hb : b.Writes W) (t : Tree) : Quiet (fun _ => True) (b.truth t) := by
  unfold truth
  dsimp only
  split
  · exact .pure trivial
  · exact .bind (hb.number t) fun _ _ => .pure trivial

theorem quiet_member (key : String) (members : List (String × α)) :
    Quiet (fun a => ∃ k, (k, a) ∈ members) (member key members) := by
  unfold member
  split
  · rename_i hvalue
    exact .pure ⟨key, mem_of_lookup hvalue⟩
  · exact .refuse _

theorem quiet_entries (s : Shape) : Quiet (fun _ => True) (entries s) := by
  unfold entries
  split
  · exact .refuse _
  · exact .pure trivial

theorem quiet_items (s : Shape) : Quiet (fun _ => True) (items s) := by
  unfold items
  split
  · exact .refuse _
  · exact .pure trivial

theorem quiet_twoItems (s : Shape) : Quiet (fun _ => True) (twoItems s) := by
  unfold twoItems
  split
  · exact .pure trivial
  · exact .refuse _

theorem quiet_members (required allowed : List String) (entries : List (Tree × α)) :
    Quiet (fun _ => True) (ofRefusal (members required allowed entries)) :=
  .ofRefusal fun _ _ => trivial

end Builder

end QueryScribe
