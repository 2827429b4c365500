import QueryScribe.Proofs.Locality.Basic

/-!
# How arguments are checked

The arguments of a call go to the slots of what is called from left to right, each one from the journal
that the one before it left. Either all of them are accepted (`Renderer.Accepts`), or there is a first
one that is not (`Renderer.Fails`), and the two cases leave no other (`accepts_or_fails`). What
the check gives in each case is said by `argumentsFrom_of_accepts` and `argumentsFrom_of_fails`, for any
slots and from any journal. The number of arguments is looked at before the first of them is written and
again after the last one.
-/

namespace QueryScribe

open Render (exec exec_bind exec_typeOf)

namespace Renderer

variable {r : Renderer} {idiomatic : Bool} {callee : String} {slot : Slot} {slots : List Slot}
  {t : Tree} {before ts : List Tree} {text : String} {texts : List String} {fault : Fault}
  {j k l : Journal}

/-! ## Arguments one after the other -/

/-- Arguments that the first slots accept, with their texts. Each is written for its slot from the
journal that the one before it left. -/
inductive Accepts (r : Renderer) (idiomatic : Bool) :
    List Slot → List Tree → Journal → List String → Journal → Prop
  | nil {slots : List Slot} {j : Journal} : Accepts r idiomatic slots [] j [] j
  | cons {slot : Slot} {slots : List Slot} {t : Tree} {ts : List Tree} {text : String}
      {texts : List String} {j k l : Journal} :
    exec (r.cast? idiomatic slot t) j = (.ok (some text), k) → Accepts r idiomatic slots ts k texts l →
      Accepts r idiomatic (slot :: slots) (t :: ts) j (text :: texts) l

/-- An argument that decides the failure of a check: writing it ends in a fault of its own, or its type
is none that the slot accepts, and the failure names its index. -/
def Fails (r : Renderer) (idiomatic : Bool) (callee : String) (index : Nat) (slot : Slot) (t : Tree)
    (k : Journal) (fault : Fault) (l : Journal) : Prop :=
  exec (r.cast? idiomatic slot t) k = (.error fault, l) ∨
    exec (r.cast? idiomatic slot t) k = (.ok none, l) ∧ ∃ type, l.notes.type? t = some type ∧
      fault = .failure ⟨.argumentType callee slot.labels type.name index, none⟩

/-- Whether a call may end after some arguments: no slot is left, or the next one may be absent. -/
def mayEnd (slots : List Slot) (count : Nat) : Bool :=
  count == slots.length || slots[count]?.any Slot.mayBeAbsent

/-- An argument that is not accepted was written and has a type. -/
theorem exists_type_of_cast? (h : exec (r.cast? idiomatic slot t) k = (.ok none, l)) :
    ∃ type, l.notes.type? t = some type := by
  rw [cast?, exec_bind] at h
  rcases hvisit : exec (r.visit idiomatic t) k with ⟨fault | text, k'⟩
  · rw [hvisit] at h
    cases h
  rw [hvisit] at h
  dsimp only at h
  rw [exec_bind, exec_typeOf] at h
  cases htype : k'.notes.type? t with
  | none =>
    rw [htype] at h
    cases h
  | some type =>
    rw [htype] at h
    dsimp only at h
    -- Only the two ends without a text leave none, and they change nothing after the visit.
    have hrest : (.ok none, k') = ((.ok none, l) : Except Fault (Option String) × Journal) := by
      split at h
      · cases h
      · split at h
        · split at h
          · rename_i name hname
            obtain ⟨expected, -, hnamed⟩ := Render.typeNamed_of_numericName? hname
            rw [hnamed, pure_bind, exec_bind] at h
            split at h <;> cases h
          · exact h
        · exact h
    cases hrest
    exact ⟨type, htype⟩

theorem accepts_or_fails_one (r : Renderer) (idiomatic : Bool) (callee : String) (index : Nat)
    (slot : Slot) (t : Tree) (j : Journal) :
    (∃ text k, exec (r.cast? idiomatic slot t) j = (.ok (some text), k)) ∨
      ∃ fault l, r.Fails idiomatic callee index slot t j fault l := by
  rcases hcast : exec (r.cast? idiomatic slot t) j with ⟨fault | _ | text, k⟩
  · exact .inr ⟨fault, k, .inl hcast⟩
  · obtain ⟨type, htype⟩ := exists_type_of_cast? hcast
    exact .inr ⟨_, k, .inr ⟨hcast, type, htype, rfl⟩⟩
  · exact .inl ⟨text, k, rfl⟩

/-- All arguments are accepted, or a first one decides the failure. -/
theorem accepts_or_fails (r : Renderer) (idiomatic : Bool) (callee : String) (index : Nat)
    (j : Journal) (h : ts.length ≤ slots.length) :
    (∃ texts k, r.Accepts idiomatic slots ts j texts k) ∨
      ∃ before t after slot texts k fault l, ts = before ++ t :: after ∧
        slots[before.length]? = some slot ∧ r.Accepts idiomatic slots before j texts k ∧
          r.Fails idiomatic callee (index + before.length) slot t k fault l := by
  induction ts generalizing slots index j with
  | nil => exact .inl ⟨[], j, .nil⟩
  | cons t ts ih =>
    cases slots with
    | nil => cases h
    | cons slot slots =>
      rcases accepts_or_fails_one r idiomatic callee index slot t j with
        ⟨text, k, hcast⟩ | ⟨fault, l, hfails⟩
      · rcases ih (index + 1) k (Nat.le_of_succ_le_succ h) with
          ⟨texts, l, haccepts⟩ | ⟨before, s, after, slot', texts, l, fault, m, rfl, hslot, haccepts,
            hfails⟩
        · exact .inl ⟨text :: texts, l, .cons hcast haccepts⟩
        · refine .inr ⟨t :: before, s, after, slot', text :: texts, l, fault, m, rfl, hslot,
            .cons hcast haccepts, ?_⟩
          rwa [List.length_cons, Nat.add_comm before.length, ← Nat.add_assoc]
      · exact .inr ⟨[], t, ts, slot, [], j, fault, l, rfl, rfl, .nil, hfails⟩

/-! ## What the check gives -/

theorem argumentsFrom_of_accepts (callee : String) (index : Nat)
    (h : r.Accepts idiomatic slots ts j texts k) :
    exec (r.argumentsFrom idiomatic callee index slots ts) j =
      if mayEnd slots ts.length then (.ok texts, k)
      else (.error (.failure ⟨.tooFewArguments callee, none⟩), k) := by
  induction h generalizing index with
  | @nil slots j =>
    cases slots with
    | nil => rfl
    | cons slot slots =>
      rw [argumentsFrom, mayEnd]
      cases hslot : slot.mayBeAbsent <;> simp [hslot, Render.fail]
  | @cons slot slots t ts text texts j k l hcast _ ih =>
    have hends : mayEnd (slot :: slots) (t :: ts).length = mayEnd slots ts.length := by
      simp [mayEnd]
    rw [argumentsFrom, exec_bind, hcast, hends]
    dsimp only
    rw [exec_bind, ih]
    cases mayEnd slots ts.length <;> rfl

theorem argumentsFrom_of_fails {index : Nat} {after : List Tree}
    (haccepts : r.Accepts idiomatic slots before j texts k) (hslot : slots[before.length]? = some slot)
    (hfails : r.Fails idiomatic callee (index + before.length) slot t k fault l) :
    exec (r.argumentsFrom idiomatic callee index slots (before ++ t :: after)) j =
      (.error fault, l) := by
  induction haccepts generalizing index with
  | @nil slots j =>
    cases slots with
    | nil => cases hslot
    | cons slot' slots =>
      obtain rfl : slot' = slot := Option.some.inj hslot
      rw [List.nil_append, argumentsFrom, exec_bind]
      rcases hfails with hcast | ⟨hcast, type, htype, rfl⟩
      · rw [hcast]
      · rw [hcast]
        dsimp only
        rw [exec_bind, exec_typeOf, htype]
        rfl
  | @cons slot' slots s before text texts j k l' hcast _ ih =>
    rw [List.length_cons, Nat.add_comm before.length, ← Nat.add_assoc] at hfails
    rw [List.cons_append, argumentsFrom, exec_bind, hcast]
    dsimp only
    rw [exec_bind, ih hslot hfails]

/-- A check of no more arguments than slots goes through them one after the other. The only other way
is that no argument is there and none may be absent. -/
theorem arguments_eq_argumentsFrom (r : Renderer) (idiomatic : Bool) (callee : String)
    (j : Journal) (h : ts.length ≤ slots.length) (hends : ts ≠ [] ∨ mayEnd slots 0) :
    exec (r.arguments idiomatic callee slots ts) j =
      exec (r.argumentsFrom idiomatic callee 0 slots ts) j := by
  cases ts with
  | nil =>
    have hmay := hends.resolve_left fun h => h rfl
    cases slots with
    | nil => rfl
    | cons slot slots =>
      have habsent : slot.mayBeAbsent := by simpa [mayEnd] using hmay
      rw [arguments, argumentsFrom, if_pos habsent, if_pos habsent]
  | cons t ts => rw [arguments, if_neg (Nat.not_lt.2 h)]

/-- The check of arguments, for all slots, arguments and journals. More arguments than slots fail at
once, and nothing is noted. Otherwise the arguments are written for their slots from left to right: if
all are accepted, the texts are given in order where the call may end after them, and a failure of the
arguments where it may not; else the first one that is not accepted decides the failure. -/
theorem arguments_outcome (r : Renderer) (idiomatic : Bool) (callee : String) (slots : List Slot)
    (ts : List Tree) (j : Journal) :
    if slots.length < ts.length then
      ∃ cause, cause.kind = .argument ∧
        exec (r.arguments idiomatic callee slots ts) j = (.error (.failure ⟨cause, none⟩), j)
    else
      (∃ texts k, r.Accepts idiomatic slots ts j texts k ∧
        if ts.length = slots.length ∨ slots[ts.length]?.any Slot.mayBeAbsent then
          exec (r.arguments idiomatic callee slots ts) j = (.ok texts, k)
        else ∃ cause, cause.kind = .argument ∧
          exec (r.arguments idiomatic callee slots ts) j = (.error (.failure ⟨cause, none⟩), k)) ∨
      ∃ before t after slot texts k fault l, ts = before ++ t :: after ∧
        slots[before.length]? = some slot ∧ r.Accepts idiomatic slots before j texts k ∧
          r.Fails idiomatic callee before.length slot t k fault l ∧
            exec (r.arguments idiomatic callee slots ts) j = (.error fault, l) := by
  split
  · rename_i hmany
    refine ⟨.tooManyArguments callee slots.length ts.length, rfl, ?_⟩
    cases ts with
    | nil => cases hmany
    | cons t ts =>
      rw [arguments, if_pos hmany]
      rfl
  · rename_i hmany
    have hlength : ts.length ≤ slots.length := Nat.not_lt.1 hmany
    rcases accepts_or_fails r idiomatic callee 0 j hlength with
      ⟨texts, k, haccepts⟩ | ⟨before, t, after, slot, texts, k, fault, l, rfl, hslot, haccepts, hfails⟩
    · have hends : mayEnd slots ts.length ↔
          ts.length = slots.length ∨ slots[ts.length]?.any Slot.mayBeAbsent := by simp [mayEnd]
      refine .inl ⟨texts, k, haccepts, ?_⟩
      split
      · rename_i hmay
        have hmay := hends.2 hmay
        have hstart : ts ≠ [] ∨ mayEnd slots 0 := by
          cases ts with
          | nil => exact .inr hmay
          | cons => exact .inl nofun
        rw [arguments_eq_argumentsFrom r idiomatic callee j hlength hstart,
          argumentsFrom_of_accepts callee 0 haccepts, if_pos hmay]
      · rename_i hmay
        have hmay : ¬mayEnd slots ts.length := fun h => hmay (hends.1 h)
        cases haccepts with
        | @nil slots j =>
          -- No argument at all has a failure of its own.
          refine ⟨.noArguments callee, rfl, ?_⟩
          cases slots with
          | nil => exact absurd rfl hmay
          | cons slot slots =>
            have habsent : ¬slot.mayBeAbsent := by simpa [mayEnd] using hmay
            rw [arguments, if_neg habsent]
            rfl
        | cons hcast haccepts =>
          refine ⟨.tooFewArguments callee, rfl, ?_⟩
          rw [arguments_eq_argumentsFrom r idiomatic callee j hlength (.inl nofun),
            argumentsFrom_of_accepts callee 0 (.cons hcast haccepts), if_neg hmay]
    · have hne : before ++ t :: after ≠ [] := by simp
      rw [Nat.zero_add] at hfails
      refine .inr ⟨before, t, after, slot, texts, k, fault, l, rfl, hslot, haccepts, hfails, ?_⟩
      rw [arguments_eq_argumentsFrom r idiomatic callee j hlength (.inl hne)]
      exact argumentsFrom_of_fails haccepts hslot (by rwa [Nat.zero_add])

end Renderer

end QueryScribe
