import Mathlib.Data.List.Basic

/-!
# Reading operators by precedence

A reader of operator expressions with the precedence that Java has. It goes through the tokens once, with
the operators and brackets that wait for an operand on a stack. An operator first settles what binds at
least as tightly before it.

What is read is grouped: each operand binds more tightly than its operator (`isGrouped_of_readTokens`). The
tokens of a grouped phrase are read to it (`readTokens_tokens`).
-/

namespace QueryScribe.Java

open List

/-! ## Phrases -/

/-- How tightly an operator binds the operands on both sides of it. It is zero for what is no such
operator. -/
def strength : String → Nat
  | "||" => 1
  | "&&" => 2
  | "|" => 3
  | "^" => 4
  | "&" => 5
  | "==" | "!=" => 6
  | "<" | ">" | "<=" | ">=" => 7
  | "<<" | ">>" => 8
  | "+" | "-" => 9
  | "*" | "/" | "%" => 10
  | _ => 0

/-- Operators before an operand. They bind more tightly than those between two. -/
def signs : List String := ["!", "~", "-", "+"]

/-- An expression as its operators are grouped. -/
inductive Phrase
  | word (text : String)
  | group (e : Phrase)
  | call (receiver : Phrase) (method : String) (args : List Phrase)
  | sign (op : String) (e : Phrase)
  | binary (op : String) (a b : Phrase)

theorem strength_le (op : String) : strength op ≤ 10 := by
  unfold strength
  split <;> decide

namespace Phrase

/-- How tightly a phrase holds together. -/
def level : Phrase → Nat
  | word _ | group _ | call _ _ _ => 12
  | sign _ _ => 11
  | binary op _ _ => strength op

mutual

/-- Whether the precedence of operators groups a phrase as it is: the operands of each operator hold
together more tightly than the operator does, and on its left side at least as tightly. -/
def isGrouped : Phrase → Bool
  | word _ => true
  | group e => isGrouped e
  | call receiver _ args => receiver.level == 12 && isGrouped receiver && areGrouped args
  | sign op e => signs.contains op && 11 ≤ e.level && isGrouped e
  | binary op a b =>
    0 < strength op && strength op ≤ a.level && strength op < b.level && isGrouped a && isGrouped b

/-- Whether all of some phrases are grouped. -/
def areGrouped : List Phrase → Bool
  | [] => true
  | e :: es => isGrouped e && areGrouped es

end

end Phrase

/-! ## Tokens -/

/-- Literals and names, and marks for all else. -/
inductive Token
  | word (text : String)
  | mark (text : String)
deriving DecidableEq

namespace Phrase

mutual

/-- The tokens of a phrase. -/
def tokens : Phrase → List Token
  | word text => [.word text]
  | group e => .mark "(" :: tokens e ++ [.mark ")"]
  | call receiver method args =>
    tokens receiver ++ .mark "." :: .word method :: .mark "(" :: argTokens args ++ [.mark ")"]
  | sign op e => .mark op :: tokens e
  | binary op a b => tokens a ++ .mark op :: tokens b

/-- The tokens of arguments, with commas between them. -/
def argTokens : List Phrase → List Token
  | [] => []
  | e :: es => tokens e ++ restTokens es

/-- The tokens of arguments after the first, each after a comma. -/
def restTokens : List Phrase → List Token
  | [] => []
  | e :: es => .mark "," :: tokens e ++ restTokens es

end

end Phrase

/-! ## The reader -/

/-- What waits for an operand. -/
inductive Frame
  | sign (op : String)
  | left (op : String) (a : Phrase)
  | group
  | call (receiver : Phrase) (method : String) (args : List Phrase)

/-- Where the reader stands: before an operand, after one, after the point of a call or after the name of
its method. -/
inductive State
  | start (stack : List Frame)
  | done (e : Phrase) (stack : List Frame)
  | point (receiver : Phrase) (stack : List Frame)
  | method (receiver : Phrase) (name : String) (stack : List Frame)

/-- Gives an operand to the operators before it that bind at least as tightly as a strength. -/
def settle (l : Nat) : Phrase → List Frame → Phrase × List Frame
  | e, .sign op :: S => settle l (.sign op e) S
  | e, .left op a :: S => if l ≤ strength op then settle l (.binary op a e) S else (e, .left op a :: S)
  | e, S => (e, S)

/-- Closes the bracket that was opened last, after an operand. -/
def close : Phrase × List Frame → Option State
  | (e, .group :: S) => some (.done (.group e) S)
  | (e, .call receiver method args :: S) => some (.done (.call receiver method (args ++ [e])) S)
  | _ => none

/-- Closes a call that has no arguments. -/
def leave : List Frame → Option State
  | .call receiver method [] :: S => some (.done (.call receiver method []) S)
  | _ => none

/-- Goes on to the next argument of a call, after an operand. -/
def advance : Phrase × List Frame → Option State
  | (e, .call receiver method args :: S) => some (.start (.call receiver method (args ++ [e]) :: S))
  | _ => none

/-- Goes on after an operator between two operands, of which the first is read. -/
def operate (op : String) : Phrase × List Frame → Option State
  | (a, S) => some (.start (.left op a :: S))

/-- Reads a token. -/
def step : State → Token → Option State
  | .start S, .word text => some (.done (.word text) S)
  | .start S, .mark op =>
    if op = "(" then some (.start (.group :: S))
    else if signs.contains op then some (.start (.sign op :: S))
    else if op = ")" then leave S
    else none
  | .done e S, .mark op =>
    if op = "." then some (.point e S)
    else if op = ")" then close (settle 0 e S)
    else if op = "," then advance (settle 0 e S)
    else if 0 < strength op then operate op (settle (strength op) e S)
    else none
  | .point e S, .word name => some (.method e name S)
  | .method e name S, .mark op => if op = "(" then some (.start (.call e name [] :: S)) else none
  | _, _ => none

/-- What is read at the end. -/
def finish : State → Option Phrase
  | .done e S =>
    match settle 0 e S with
    | (e, []) => some e
    | _ => none
  | _ => none

/-- Reads tokens one after the other. -/
def run (s : State) (ts : List Token) : Option State := ts.foldlM step s

/-- The phrase that tokens are read to. -/
def readTokens (ts : List Token) : Option Phrase := (run (.start []) ts).bind finish

theorem run_append (s : State) (ts us : List Token) : run s (ts ++ us) = (run s ts).bind (run · us) :=
  foldlM_append

theorem run_cons (s : State) (t : Token) (ts : List Token) : run s (t :: ts) = (step s t).bind (run · ts) :=
  foldlM_cons

/-! ## What fits on the stack -/

/-- Whether a phrase of a level can stand where the stack waits for an operand. -/
def Fits (l : Nat) : List Frame → Prop
  | .sign _ :: _ => 11 ≤ l
  | .left op _ :: _ => strength op < l
  | _ => True

variable {S : List Frame} {e : Phrase}

variable {l : Nat} {s : State}

theorem Fits.mono {l' : Nat} (h : Fits l S) (hl : l ≤ l') : Fits l' S := by
  cases S with
  | nil => trivial
  | cons frame S =>
    cases frame with
    | sign => exact Nat.le_trans h hl
    | left => exact Nat.lt_of_lt_of_le h hl
    | group | call => trivial

theorem fits_of_le (hl : 11 ≤ l) (S : List Frame) : Fits l S := by
  cases S with
  | nil => trivial
  | cons frame S =>
    cases frame with
    | sign => exact hl
    | left op => exact Nat.lt_of_le_of_lt (strength_le op) (Nat.lt_of_lt_of_le (by decide) hl)
    | group | call => trivial

theorem settle_of_fits (h : Fits l S) (hl : l ≤ 10) : settle l e S = (e, S) := by
  cases S with
  | nil => rfl
  | cons frame S =>
    cases frame with
    | sign => exact absurd (Nat.le_trans h hl) (by decide)
    | left op a => exact if_neg (Nat.not_le.2 h)
    | group | call => rfl

/-! ## Tokens of grouped phrases are read -/

namespace Phrase

/-- The last operand of a phrase. -/
def tip : Phrase → Phrase
  | sign _ e => tip e
  | binary _ _ b => tip b
  | e => e

/-- What waits for the last operand of a phrase. -/
def spine : Phrase → List Frame
  | sign op e => spine e ++ [.sign op]
  | binary op a b => spine b ++ [.left op a]
  | _ => []

/-- The last operand of a grouped phrase is given to the operators of the phrase. -/
theorem settle_tip : (e : Phrase) → e.isGrouped → {l : Nat} → l ≤ e.level → (S : List Frame) →
    settle l e.tip (e.spine ++ S) = settle l e S
  | word _, _, _, _, _ | group _, _, _, _, _ | call _ _ _, _, _, _, _ => rfl
  | sign op e, he, l, hl, S => by
    simp only [isGrouped, Bool.and_eq_true, decide_eq_true_eq] at he
    rw [tip, spine, append_assoc, settle_tip e he.2 (Nat.le_trans hl he.1.2)]
    rfl
  | binary op a b, he, l, hl, S => by
    simp only [isGrouped, Bool.and_eq_true, decide_eq_true_eq] at he
    have hb : l ≤ b.level := Nat.le_of_lt (Nat.lt_of_le_of_lt hl he.1.1.2)
    rw [tip, spine, append_assoc, settle_tip b he.2 hb]
    exact if_pos hl

theorem tip_of_level {e : Phrase} (h : e.level = 12) : e.tip = e ∧ e.spine = [] := by
  cases e with
  | word | group | call => exact ⟨rfl, rfl⟩
  | sign => cases h
  | binary op =>
    have hle := strength_le op
    rw [show strength op = 12 from h] at hle
    exact absurd hle (by decide)

end Phrase

theorem step_binary {op : String} (h : 0 < strength op) (e : Phrase) (S : List Frame) :
    step (.done e S) (.mark op) = operate op (settle (strength op) e S) := by
  have hne : ∀ mark, strength mark = 0 → op ≠ mark := by
    rintro mark hmark rfl
    exact absurd h (hmark ▸ Nat.lt_irrefl 0)
  rw [step, if_neg (hne "." rfl), if_neg (hne ")" rfl), if_neg (hne "," rfl), if_pos h]

theorem step_close (e : Phrase) (S : List Frame) :
    step (.done e S) (.mark ")") = close (settle 0 e S) := rfl

theorem step_comma (e : Phrase) (S : List Frame) :
    step (.done e S) (.mark ",") = advance (settle 0 e S) := rfl

theorem step_sign {op : String} (h : signs.contains op) (S : List Frame) :
    step (.start S) (.mark op) = some (.start (.sign op :: S)) := by
  have hne : op ≠ "(" := by
    rintro rfl
    cases h
  rw [step, if_neg hne, if_pos h]

mutual

/-- The tokens of a grouped phrase take the reader from before the phrase to after its last operand. -/
theorem run_tokens : (e : Phrase) → e.isGrouped → (S : List Frame) → Fits e.level S →
    run (.start S) e.tokens = some (.done e.tip (e.spine ++ S))
  | .word text, _, S, _ => rfl
  | .group e, he, S, _ => by
    rw [Phrase.tokens, cons_append, run_cons, step, if_pos rfl, Option.bind_some, run_append,
      run_tokens e he (.group :: S) trivial, Option.bind_some, run_cons, step_close,
      e.settle_tip he (Nat.zero_le _)]
    rfl
  | .call receiver method args, he, S, hS => by
    simp only [Phrase.isGrouped, Bool.and_eq_true, beq_iff_eq] at he
    obtain ⟨⟨hlevel, hreceiver⟩, hargs⟩ := he
    obtain ⟨htip, hspine⟩ := Phrase.tip_of_level hlevel
    rw [Phrase.tokens, append_assoc, run_append, run_tokens receiver hreceiver S (hlevel ▸ hS), htip,
      hspine]
    exact run_args args hargs receiver method S
  | .sign op e, he, S, _ => by
    simp only [Phrase.isGrouped, Bool.and_eq_true, decide_eq_true_eq] at he
    rw [Phrase.tokens, run_cons, step_sign he.1.1, Option.bind_some,
      run_tokens e he.2 (.sign op :: S) he.1.2, Phrase.tip, Phrase.spine, append_assoc]
    rfl
  | .binary op a b, he, S, hS => by
    simp only [Phrase.isGrouped, Bool.and_eq_true, decide_eq_true_eq] at he
    obtain ⟨⟨⟨⟨hop, ha⟩, hb⟩, hag⟩, hbg⟩ := he
    have hsettle : settle (strength op) a S = (a, S) := settle_of_fits hS (strength_le op)
    rw [Phrase.tokens, run_append, run_tokens a hag S (hS.mono ha), Option.bind_some, run_cons,
      step_binary hop, a.settle_tip hag ha, hsettle, operate, Option.bind_some,
      run_tokens b hbg (.left op a :: S) hb, Phrase.tip, Phrase.spine, append_assoc]
    rfl

theorem run_args : (es : List Phrase) → Phrase.areGrouped es → (receiver : Phrase) →
    (method : String) → (S : List Frame) →
    run (.start (.call receiver method [] :: S)) (Phrase.argTokens es ++ [.mark ")"]) =
      some (.done (.call receiver method es) S)
  | [], _, _, _, _ => rfl
  | e :: es, h, receiver, method, S => by
    rw [Phrase.areGrouped, Bool.and_eq_true] at h
    rw [Phrase.argTokens, append_assoc, run_append,
      run_tokens e h.1 (.call receiver method [] :: S) trivial]
    exact run_rest es h.2 e h.1 receiver method [] S

theorem run_rest : (es : List Phrase) → Phrase.areGrouped es → (e : Phrase) → e.isGrouped →
    (receiver : Phrase) → (method : String) → (args : List Phrase) → (S : List Frame) →
    run (.done e.tip (e.spine ++ .call receiver method args :: S)) (Phrase.restTokens es ++ [.mark ")"]) =
      some (.done (.call receiver method (args ++ e :: es)) S)
  | [], _, e, he, receiver, method, args, S => by
    rw [Phrase.restTokens, nil_append, run_cons, step_close, e.settle_tip he (Nat.zero_le _)]
    rfl
  | e' :: es, h, e, he, receiver, method, args, S => by
    rw [Phrase.areGrouped, Bool.and_eq_true] at h
    rw [Phrase.restTokens, cons_append, cons_append, run_cons, step_comma,
      e.settle_tip he (Nat.zero_le _), append_assoc]
    change run (.start (.call receiver method (args ++ [e]) :: S)) _ = _
    rw [run_append, run_tokens e' h.1 (.call receiver method (args ++ [e]) :: S) trivial, Option.bind_some,
      run_rest es h.2 e' h.1 receiver method (args ++ [e]) S, append_assoc]
    rfl

end

theorem readTokens_tokens (he : e.isGrouped) : readTokens e.tokens = some e := by
  have hsettle : settle 0 e.tip (e.spine ++ []) = (e, []) := e.settle_tip he (Nat.zero_le _) []
  rw [readTokens, run_tokens e he [] trivial, Option.bind_some, finish, hsettle]

/-! ## What is read is grouped -/

theorem Phrase.areGrouped_append (es fs : List Phrase) :
    areGrouped (es ++ fs) = (areGrouped es && areGrouped fs) := by
  induction es with
  | nil => rfl
  | cons e es ih => rw [cons_append, areGrouped, areGrouped, ih, Bool.and_assoc]

/-- What waits on the stack is grouped, and each operator fits where it waits. -/
def Stacked : List Frame → Prop
  | [] => True
  | .sign op :: S => signs.contains op = true ∧ Stacked S
  | .left op a :: S =>
    0 < strength op ∧ strength op ≤ a.level ∧ a.isGrouped = true ∧ Fits (strength op) S ∧ Stacked S
  | .group :: S => Stacked S
  | .call receiver _ args :: S =>
    receiver.level = 12 ∧ receiver.isGrouped = true ∧ Phrase.areGrouped args = true ∧ Stacked S

/-- What the reader holds is grouped. -/
def State.Grouped : State → Prop
  | start S => Stacked S
  | done e S | point e S | method e _ S => e.level = 12 ∧ e.isGrouped = true ∧ Stacked S

/-- What is settled is grouped, holds together at least as tightly as the strength, and the operator of
this strength fits where it stands. -/
theorem grouped_settle (hl : l ≤ 10) (he : e.isGrouped) (hlevel : l ≤ e.level) (hfits : Fits e.level S)
    (hS : Stacked S) :
    (settle l e S).1.isGrouped ∧ l ≤ (settle l e S).1.level ∧ Fits l (settle l e S).2 ∧
      Stacked (settle l e S).2 := by
  induction S generalizing e with
  | nil => exact ⟨he, hlevel, trivial, trivial⟩
  | cons frame S ih =>
    cases frame with
    | sign op =>
      have hsign : (Phrase.sign op e).isGrouped := by
        simp only [Phrase.isGrouped, Bool.and_eq_true, decide_eq_true_eq]
        exact ⟨⟨hS.1, hfits⟩, he⟩
      exact ih hsign (Nat.le_trans hl (Nat.le_succ 10)) (fits_of_le (Nat.le_refl 11) S) hS.2
    | left op a =>
      obtain ⟨hop, ha, hag, hbelow, hS'⟩ := hS
      by_cases hle : l ≤ strength op
      · have hbinary : (Phrase.binary op a e).isGrouped := by
          simp only [Phrase.isGrouped, Bool.and_eq_true, decide_eq_true_eq]
          exact ⟨⟨⟨⟨hop, ha⟩, hfits⟩, hag⟩, he⟩
        rw [settle, if_pos hle]
        exact ih hbinary hle hbelow hS'
      · rw [settle, if_neg hle]
        exact ⟨he, hlevel, Nat.not_le.1 hle, hop, ha, hag, hbelow, hS'⟩
    | group | call => exact ⟨he, hlevel, trivial, hS⟩

theorem areGrouped_concat {args : List Phrase} (hargs : Phrase.areGrouped args)
    (he : e.isGrouped) : Phrase.areGrouped (args ++ [e]) := by
  rw [Phrase.areGrouped_append, hargs, Phrase.areGrouped, he]
  rfl

theorem isGrouped_call {receiver : Phrase} {method : String} {args : List Phrase}
    (hlevel : receiver.level = 12) (hreceiver : receiver.isGrouped)
    (hargs : Phrase.areGrouped args) : (Phrase.call receiver method args).isGrouped := by
  rw [Phrase.isGrouped, hlevel, hreceiver, hargs]
  rfl

theorem grouped_leave (h : Stacked S) (hs : leave S = some s) : s.Grouped := by
  unfold leave at hs
  split at hs
  · cases hs
    obtain ⟨hlevel, hreceiver, hargs, hS⟩ := h
    exact ⟨rfl, isGrouped_call hlevel hreceiver hargs, hS⟩
  · cases hs

theorem grouped_close (he : e.isGrouped) (h : Stacked S) (hs : close (e, S) = some s) : s.Grouped := by
  unfold close at hs
  split at hs
  · rename_i heq
    cases heq
    cases hs
    exact ⟨rfl, he, h⟩
  · rename_i heq
    cases heq
    cases hs
    obtain ⟨hlevel, hreceiver, hargs, hS⟩ := h
    exact ⟨rfl, isGrouped_call hlevel hreceiver (areGrouped_concat hargs he), hS⟩
  · cases hs

theorem grouped_advance (he : e.isGrouped) (h : Stacked S) (hs : advance (e, S) = some s) : s.Grouped := by
  unfold advance at hs
  split at hs
  · rename_i heq
    cases heq
    cases hs
    obtain ⟨hlevel, hreceiver, hargs, hS⟩ := h
    exact ⟨hlevel, hreceiver, areGrouped_concat hargs he, hS⟩
  · cases hs

/-- Every step keeps what the reader holds grouped. -/
theorem State.Grouped.step {s' : State} {t : Token} (h : s.Grouped) (hs : Java.step s t = some s') :
    s'.Grouped := by
  cases s with
  | start S =>
    cases t with
    | word text =>
      cases hs
      exact ⟨rfl, rfl, h⟩
    | mark op =>
      rw [Java.step] at hs
      split_ifs at hs with hopen hsign hclose
      · cases hs
        exact h
      · cases hs
        exact ⟨hsign, h⟩
      · exact grouped_leave h hs
  | done e S =>
    obtain ⟨hlevel, he, hS⟩ := h
    have hfits : Fits e.level S := hlevel ▸ fits_of_le (by decide) S
    cases t with
    | word => cases hs
    | mark op =>
      rw [Java.step] at hs
      split_ifs at hs with hpoint hclose hcomma hop
      · cases hs
        exact ⟨hlevel, he, hS⟩
      · obtain ⟨hsettled, -, -, hstacked⟩ := grouped_settle (Nat.zero_le 10) he (Nat.zero_le _) hfits hS
        exact grouped_close hsettled hstacked hs
      · obtain ⟨hsettled, -, -, hstacked⟩ := grouped_settle (Nat.zero_le 10) he (Nat.zero_le _) hfits hS
        exact grouped_advance hsettled hstacked hs
      · have hle : strength op ≤ e.level := hlevel ▸ Nat.le_trans (strength_le op) (by decide)
        obtain ⟨hsettled, hle, hfits, hstacked⟩ := grouped_settle (strength_le op) he hle hfits hS
        cases hs
        exact ⟨hop, hle, hsettled, hfits, hstacked⟩
  | point e S =>
    cases t with
    | word => cases hs; exact h
    | mark => cases hs
  | method e name S =>
    cases t with
    | word => cases hs
    | mark op =>
      rw [Java.step] at hs
      split_ifs at hs
      cases hs
      exact ⟨h.1, h.2.1, rfl, h.2.2⟩

theorem State.Grouped.run {s' : State} {ts : List Token} (h : s.Grouped) (hs : Java.run s ts = some s') :
    s'.Grouped := by
  induction ts generalizing s with
  | nil => exact Option.some.inj hs ▸ h
  | cons t ts ih =>
    rw [run_cons] at hs
    obtain ⟨u, hu, hs⟩ := Option.bind_eq_some_iff.1 hs
    exact ih (h.step hu) hs

theorem isGrouped_of_readTokens {ts : List Token} (h : readTokens ts = some e) :
    e.isGrouped := by
  obtain ⟨s, hs, he⟩ := Option.bind_eq_some_iff.1 h
  have hgrouped : s.Grouped := State.Grouped.run (s := .start []) trivial hs
  cases s with
  | start | point | method => cases he
  | done d S =>
    obtain ⟨hlevel, hd, hS⟩ := hgrouped
    have hsettled := (grouped_settle (Nat.zero_le 10) hd (Nat.zero_le _)
      (hlevel ▸ fits_of_le (by decide) S) hS).1
    rw [finish] at he
    generalize settle 0 d S = settled at he hsettled
    obtain ⟨d', S'⟩ := settled
    cases S' with
    | nil => exact Option.some.inj he ▸ hsettled
    | cons => cases he

end QueryScribe.Java
