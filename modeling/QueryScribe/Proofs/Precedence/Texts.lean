import Mathlib.Data.Bool.AllAny
import QueryScribe.Proofs.Precedence.Reader
import QueryScribe.Text.Blank

/-!
# Texts of phrases

A text is read by the tokens that it is made of (`read`). The text of a phrase is read to the phrase
exactly when the phrase is grouped and no sign stands right before the same sign (`read_text_iff`): two
signs would make one token.
-/

namespace QueryScribe.Java

open List

/-! ## From characters to tokens -/

/-- The characters that marks are made of. -/
def markChars : List Char :=
  ['(', ')', '[', ']', ',', '.', '!', '~', '+', '-', '*', '/', '%', '<', '>', '=', '&', '|', '^', '@']

/-- Whether a character belongs to a literal or a name. -/
def isWordChar (c : Char) : Bool := !Text.isBlank c && !markChars.contains c

/-- The marks of two characters. -/
def doubles : List (Char × Char) :=
  [('|', '|'), ('&', '&'), ('=', '='), ('!', '='), ('<', '='), ('>', '='), ('<', '<'), ('>', '>'),
    ('+', '+'), ('-', '-')]

/-- What was read of the next token: a part of a word, or the first character of a mark. -/
inductive Held
  | word (cs : List Char)
  | mark (c : Char)

namespace Held

/-- The token that was read if it ends here. -/
def tokens : Held → List Token
  | word [] => []
  | word cs => [.word (String.ofList cs)]
  | mark c => [.mark (String.ofList [c])]

/-- Reads a character: the tokens that end before or with it, and what was read of the next. Of the marks
the longest is taken. -/
def take (held : Held) (c : Char) : List Token × Held :=
  if isWordChar c then
    match held with
    | word cs => ([], word (cs ++ [c]))
    | mark m => ([.mark (String.ofList [m])], word [c])
  else if Text.isBlank c then (held.tokens, word [])
  else
    match held with
    | word cs => ((word cs).tokens, mark c)
    | mark m =>
      if doubles.contains (m, c) then ([.mark (String.ofList [m, c])], word [])
      else ([.mark (String.ofList [m])], mark c)

end Held

/-- The tokens of a text after what was read of the first. -/
def lexFrom (held : Held) : List Char → List Token
  | [] => held.tokens
  | c :: cs => (held.take c).1 ++ lexFrom (held.take c).2 cs

/-- The tokens of a text. -/
def lex (cs : List Char) : List Token := lexFrom (.word []) cs

/-- The phrase that a text is read to. -/
def read (text : String) : Option Phrase := readTokens (lex text.toList)

/-- Whether a word ends before some characters. -/
def Stops (cs : List Char) : Prop := ∀ c ∈ cs.head?, isWordChar c = false

/-- Whether a text is one word. -/
def isWord (text : String) : Bool := text.toList.all isWordChar && !text.toList.isEmpty

section Lexing

variable {c d : Char} {word cs rest : List Char}

theorem isBlank_of_mem_markChars : ∀ c ∈ markChars, isWordChar c = false ∧ Text.isBlank c = false :=
  all_iff_forall_prop.1 (by decide)

theorem lexFrom_append (h : ∀ c ∈ cs, isWordChar c) :
    lexFrom (.word word) (cs ++ rest) = lexFrom (.word (word ++ cs)) rest := by
  induction cs generalizing word with
  | nil => rw [append_nil, nil_append]
  | cons c cs ih =>
    obtain ⟨hc, hcs⟩ := forall_mem_cons.1 h
    rw [cons_append, lexFrom, Held.take, if_pos hc, nil_append, ih hcs, append_assoc,
      singleton_append]

theorem lexFrom_of_stops (h : Stops rest) : lexFrom (.word word) rest = (Held.word word).tokens ++ lex rest := by
  cases rest with
  | nil => exact (append_nil _).symm
  | cons c cs =>
    have hc : ¬isWordChar c := by
      rw [h c rfl]
      exact Bool.false_ne_true
    rw [lex, lexFrom, lexFrom, Held.take, Held.take, if_neg hc, if_neg hc]
    split <;> rfl

theorem lex_word {text : String} (hword : isWord text) (h : Stops rest) :
    lex (text.toList ++ rest) = .word text :: lex rest := by
  simp only [isWord, Bool.and_eq_true, all_eq_true, Bool.not_eq_true', isEmpty_eq_false_iff] at hword
  rw [lex, lexFrom_append hword.1, lexFrom_of_stops h, nil_append]
  have htokens : (Held.word text.toList).tokens = [.word text] := by
    unfold Held.tokens
    split
    · exact absurd ‹_› (by simpa using hword.2)
    · rename_i heq
      cases heq
      rw [String.ofList_toList]
    · rename_i heq
      cases heq
  rw [htokens]
  rfl

theorem lex_blank : lex (' ' :: rest) = lex rest := by
  have hword : isWordChar ' ' = false := by decide
  have hblank : Text.isBlank ' ' := by decide
  rw [lex, lexFrom, Held.take, hword, hblank]
  rfl

theorem lex_cons (hc : c ∈ markChars) : lex (c :: rest) = lexFrom (.mark c) rest := by
  obtain ⟨hword, hblank⟩ := isBlank_of_mem_markChars c hc
  rw [lex, lexFrom, Held.take, hword, hblank]
  rfl

/-- A mark of one character, unless it makes one of two with the next. -/
theorem lex_mark (hc : c ∈ markChars) (h : ∀ d ∈ rest.head?, doubles.contains (c, d) = false) :
    lex (c :: rest) = .mark (String.ofList [c]) :: lex rest := by
  rw [lex_cons hc]
  cases rest with
  | nil => rfl
  | cons d ds =>
    rw [lex, lexFrom, lexFrom, Held.take, Held.take, h d rfl]
    split
    · rfl
    · split <;> rfl

theorem lex_double (hc : c ∈ markChars) (hd : d ∈ markChars) (h : doubles.contains (c, d)) :
    lex (c :: d :: rest) = .mark (String.ofList [c, d]) :: lex rest := by
  obtain ⟨hword, hblank⟩ := isBlank_of_mem_markChars d hd
  rw [lex_cons hc, lexFrom, Held.take, hword, hblank]
  simp only [h]
  rfl

theorem lex_operator {op : String} (h : 0 < strength op) :
    lex (' ' :: (op.toList ++ ' ' :: rest)) = .mark op :: lex rest := by
  have hsingle : ∀ c ∈ markChars, doubles.contains (c, ' ') = false :=
    all_iff_forall_prop.1 (by decide)
  have hmark : ∀ {c : Char}, c ∈ markChars →
      lex (c :: ' ' :: rest) = .mark (String.ofList [c]) :: lex rest := by
    intro c hc
    rw [lex_mark hc (by simpa using hsingle c hc), lex_blank]
  have hpair : ∀ {c d : Char}, c ∈ markChars → d ∈ markChars → doubles.contains (c, d) →
      lex (c :: d :: ' ' :: rest) = .mark (String.ofList [c, d]) :: lex rest := by
    intro c d hc hd hdouble
    rw [lex_double hc hd hdouble, lex_blank]
  rw [lex_blank]
  unfold strength at h
  split at h
  all_goals first
    | exact hmark (by decide)
    | exact hpair (by decide) (by decide) (by decide)
    | exact absurd h (Nat.lt_irrefl 0)

end Lexing

/-! ## Texts of phrases -/

namespace Phrase

mutual

/-- The text of a phrase. -/
def text : Phrase → String
  | word text => text
  | group e => "(" ++ text e ++ ")"
  | call receiver method args => text receiver ++ "." ++ method ++ "(" ++ argText args ++ ")"
  | sign op e => op ++ text e
  | binary op a b => text a ++ " " ++ op ++ " " ++ text b

/-- The text of arguments, with commas between them. -/
def argText : List Phrase → String
  | [] => ""
  | e :: es => text e ++ restText es

/-- The text of arguments after the first, each after a comma. -/
def restText : List Phrase → String
  | [] => ""
  | e :: es => ", " ++ text e ++ restText es

end

mutual

/-- Whether a phrase is made of words and operators. -/
def isWorded : Phrase → Bool
  | word text => isWord text
  | group e => isWorded e
  | call receiver method args => isWorded receiver && isWord method && areWorded args
  | sign op e => signs.contains op && isWorded e
  | binary op a b => 0 < strength op && isWorded a && isWorded b

/-- Whether all of some phrases are made of words and operators. -/
def areWorded : List Phrase → Bool
  | [] => true
  | e :: es => isWorded e && areWorded es

end

/-- The mark that a phrase starts with, if it does. -/
def lead : Phrase → String
  | word _ => ""
  | group _ => "("
  | call receiver _ _ => lead receiver
  | sign op _ => op
  | binary _ a _ => lead a

mutual

/-- Whether no sign stands right before the same sign, where both together are another token. -/
def isSpaced : Phrase → Bool
  | word _ => true
  | group e => isSpaced e
  | call receiver _ args => isSpaced receiver && areSpaced args
  | sign op e => !(["+", "-"].contains op && e.lead == op) && isSpaced e
  | binary _ a b => isSpaced a && isSpaced b

/-- Whether all of some phrases are spaced. -/
def areSpaced : List Phrase → Bool
  | [] => true
  | e :: es => isSpaced e && areSpaced es

end

theorem exists_lead : (e : Phrase) → e.isWorded → ∃ c, e.text.toList.head? = some c ∧
    (isWordChar c ∧ e.lead = "" ∨ c ∈ ['(', '!', '~', '+', '-'] ∧ e.lead = String.ofList [c])
  | word text, h => by
    simp only [isWorded, isWord, Bool.and_eq_true, all_eq_true, Bool.not_eq_true',
      isEmpty_eq_false_iff] at h
    obtain ⟨c, cs, hcs⟩ := exists_cons_of_ne_nil h.2
    exact ⟨c, congrArg List.head? hcs, .inl ⟨h.1 c (hcs ▸ (.head _)), rfl⟩⟩
  | group e, _ => ⟨'(', by simp [text], .inr ⟨by decide, rfl⟩⟩
  | call receiver method args, h => by
    simp only [isWorded, Bool.and_eq_true] at h
    obtain ⟨c, hc, hlead⟩ := exists_lead receiver h.1.1
    exact ⟨c, by simp [text, head?_append, hc], hlead⟩
  | sign op e, h => by
    simp only [isWorded, Bool.and_eq_true, contains_eq_mem, decide_eq_true_eq] at h
    have hop := h.1
    simp only [signs, mem_cons, not_mem_nil, or_false] at hop
    rcases hop with rfl | rfl | rfl | rfl
    all_goals exact ⟨_, by rw [text, String.toList_append]; rfl, .inr ⟨by decide, rfl⟩⟩
  | binary op a b, h => by
    simp only [isWorded, Bool.and_eq_true] at h
    obtain ⟨c, hc, hlead⟩ := exists_lead a h.1.2
    exact ⟨c, by simp [text, head?_append, hc], hlead⟩

end Phrase

variable {op : String} {e : Phrase}

theorem exists_of_mem_signs (h : op ∈ signs) : ∃ m ∈ markChars, op = String.ofList [m] ∧
    ∀ c ∈ ['(', '!', '~', '+', '-'], (["+", "-"].contains op && String.ofList [c] == op) = false →
      doubles.contains (m, c) = false := by
  have hchars : ∀ m ∈ ['!', '~', '-', '+'], m ∈ markChars ∧
      (['(', '!', '~', '+', '-'].all fun c =>
        (["+", "-"].contains (String.ofList [m]) && String.ofList [c] == String.ofList [m]) ||
          !doubles.contains (m, c)) := all_iff_forall_prop.1 (by decide)
  have hmap : signs = ['!', '~', '-', '+'].map fun m => String.ofList [m] := by decide
  obtain ⟨m, hm, rfl⟩ := mem_map.1 (hmap ▸ h)
  obtain ⟨hmark, hall⟩ := hchars m hm
  refine ⟨m, hmark, rfl, fun c hc hsame => ?_⟩
  have hpair := all_eq_true.1 hall c hc
  rwa [hsame, Bool.false_or, Bool.not_eq_true'] at hpair

theorem lex_sign (hop : signs.contains op) (he : e.isWorded)
    (h : (["+", "-"].contains op && e.lead == op) = false) (rest : List Char) :
    lex (op.toList ++ (e.text.toList ++ rest)) = .mark op :: lex (e.text.toList ++ rest) := by
  obtain ⟨c, hc, hlead⟩ := e.exists_lead he
  obtain ⟨m, hm, rfl, hsign⟩ := exists_of_mem_signs (elem_iff.1 hop)
  have hdouble : doubles.contains (m, c) = false := by
    rcases hlead with ⟨hword, -⟩ | ⟨hmem, hlead⟩
    · have hwords : ∀ p ∈ doubles, isWordChar p.2 = false := by decide
      rw [contains_eq_mem, decide_eq_false_iff_not]
      intro hmem
      rw [hwords _ hmem] at hword
      cases hword
    · exact hsign c hmem (hlead ▸ h)
  rw [String.toList_ofList, singleton_append]
  refine lex_mark hm fun d hd => ?_
  rw [head?_append, hc] at hd
  cases hd
  exact hdouble

theorem mem_lex_sign (hop : op ∈ ["+", "-"]) (he : e.isWorded) (h : e.lead = op) (rest : List Char) :
    .mark (op ++ op) ∈ lex (op.toList ++ (e.text.toList ++ rest)) := by
  obtain ⟨c, hc, hlead⟩ := e.exists_lead he
  rcases hlead with ⟨-, hlead⟩ | ⟨hmem, hlead⟩
  · have hne : ∀ op ∈ ["+", "-"], op ≠ "" := by decide
    exact absurd (h.symm.trans hlead) (hne op hop)
  · obtain rfl : op = String.ofList [c] := h.symm.trans hlead
    have hsigns : ∀ c ∈ ['(', '!', '~', '+', '-'], String.ofList [c] ∈ ["+", "-"] →
        c ∈ markChars ∧ doubles.contains (c, c) := all_iff_forall_prop.1 (by decide)
    obtain ⟨hmark, hdouble⟩ := hsigns c hmem hop
    obtain ⟨cs, hcs⟩ : ∃ cs, e.text.toList = c :: cs := head?_eq_some_iff.1 hc
    rw [String.toList_ofList, hcs]
    change _ ∈ lex (c :: c :: (cs ++ rest))
    rw [lex_double hmark hmark hdouble, ← String.ofList_append]
    exact .head _

/-! ## Tokens of texts -/

theorem stops_nil : Stops [] := by
  rintro c hc
  cases hc

theorem stops_cons {c : Char} (h : isWordChar c = false) (cs : List Char) : Stops (c :: cs) := by
  rintro d hd
  rwa [← Option.some.inj hd]

theorem lex_bracket {c : Char} (hc : c ∈ ['(', ')', ',', '.']) (rest : List Char) :
    lex (c :: rest) = .mark (String.ofList [c]) :: lex rest := by
  have hmarks : ∀ c ∈ ['(', ')', ',', '.'], c ∈ markChars ∧ doubles.all (·.1 ≠ c) :=
    all_iff_forall_prop.1 (by decide)
  obtain ⟨hmark, hdouble⟩ := hmarks c hc
  refine lex_mark hmark fun d _ => ?_
  rw [contains_eq_mem, decide_eq_false_iff_not]
  exact fun hmem => all_iff_forall_prop.1 hdouble _ hmem rfl

namespace Phrase

variable (rest : List Char)

theorem text_group (e : Phrase) : (group e).text.toList ++ rest = '(' :: (e.text.toList ++ ')' :: rest) := by
  simp [text]

theorem text_call (receiver : Phrase) (method : String) (args : List Phrase) :
    (call receiver method args).text.toList ++ rest = receiver.text.toList ++
      '.' :: (method.toList ++ '(' :: ((argText args).toList ++ ')' :: rest)) := by
  simp [text]

theorem text_sign (op : String) (e : Phrase) :
    (sign op e).text.toList ++ rest = op.toList ++ (e.text.toList ++ rest) := by
  simp [text]

theorem text_binary (op : String) (a b : Phrase) : (binary op a b).text.toList ++ rest =
    a.text.toList ++ ' ' :: (op.toList ++ ' ' :: (b.text.toList ++ rest)) := by
  simp [text]

theorem argText_cons (e : Phrase) (es : List Phrase) :
    (argText (e :: es)).toList ++ rest = e.text.toList ++ ((restText es).toList ++ rest) := by
  simp [argText]

theorem restText_cons (e : Phrase) (es : List Phrase) :
    (restText (e :: es)).toList ++ rest = ',' :: ' ' :: (e.text.toList ++ ((restText es).toList ++ rest)) := by
  simp [restText]

theorem stops_restText (es : List Phrase) : Stops ((restText es).toList ++ ')' :: rest) := by
  cases es with
  | nil => exact stops_cons (by decide) _
  | cons e es =>
    rw [restText_cons]
    exact stops_cons (by decide) _

end Phrase

/-- After the first argument, the arguments come as they do at the start, after a comma. -/
theorem lex_restText {es : List Phrase} (h : es ≠ []) {rest : List Char} :
    lex ((Phrase.restText es).toList ++ ')' :: rest) =
      .mark "," :: lex ((Phrase.argText es).toList ++ ')' :: rest) := by
  obtain ⟨e, es, rfl⟩ := exists_cons_of_ne_nil h
  rw [Phrase.restText_cons, Phrase.argText_cons, lex_bracket (by decide), lex_blank]

mutual

theorem lex_text : (e : Phrase) → e.isWorded → e.isSpaced → {rest : List Char} → Stops rest →
    lex (e.text.toList ++ rest) = e.tokens ++ lex rest
  | .word text, hword, _, rest, hrest => by
    rw [Phrase.text, lex_word hword hrest]
    rfl
  | .group e, hword, hspaced, rest, _ => by
    rw [Phrase.text_group, lex_bracket (by decide), lex_text e hword hspaced (stops_cons (by decide) _),
      lex_bracket (by decide), Phrase.tokens, cons_append, cons_append, append_assoc]
    rfl
  | .call receiver method args, hword, hspaced, rest, hrest => by
    simp only [Phrase.isWorded, Phrase.isSpaced, Bool.and_eq_true] at hword hspaced
    rw [Phrase.text_call, lex_text receiver hword.1.1 hspaced.1 (stops_cons (by decide) _),
      lex_bracket (by decide), lex_word hword.1.2 (stops_cons (by decide) _), lex_bracket (by decide),
      lex_args args hword.2 hspaced.2, Phrase.tokens]
    simp only [append_assoc, cons_append, nil_append]
  | .sign op e, hword, hspaced, rest, hrest => by
    simp only [Phrase.isWorded, Phrase.isSpaced, Bool.and_eq_true, Bool.not_eq_true'] at hword hspaced
    rw [Phrase.text_sign, lex_sign hword.1 hword.2 hspaced.1, lex_text e hword.2 hspaced.2 hrest]
    rfl
  | .binary op a b, hword, hspaced, rest, hrest => by
    simp only [Phrase.isWorded, Phrase.isSpaced, Bool.and_eq_true, decide_eq_true_eq] at hword hspaced
    rw [Phrase.text_binary, lex_text a hword.1.2 hspaced.1 (stops_cons (by decide) _),
      lex_operator hword.1.1, lex_text b hword.2 hspaced.2 hrest, Phrase.tokens, append_assoc,
      cons_append]

theorem lex_args : (es : List Phrase) → Phrase.areWorded es → Phrase.areSpaced es →
    {rest : List Char} →
    lex ((Phrase.argText es).toList ++ ')' :: rest) = Phrase.argTokens es ++ .mark ")" :: lex rest
  | [], _, _, rest => lex_bracket (by decide) rest
  | e :: es, hword, hspaced, rest => by
    simp only [Phrase.areWorded, Phrase.areSpaced, Bool.and_eq_true] at hword hspaced
    have hrest := @lex_args es hword.2 hspaced.2 rest
    rw [Phrase.argText_cons, lex_text e hword.1 hspaced.1 (Phrase.stops_restText rest es),
      Phrase.argTokens, append_assoc]
    cases es with
    | nil => exact congrArg _ hrest
    | cons e' es =>
      rw [lex_restText (cons_ne_nil e' es), hrest]
      rfl

end

/-! ## Signs that run together -/

/-- Whether a token is one of two signs that run together. -/
def Clashes (ts : List Token) : Prop := .mark "++" ∈ ts ∨ .mark "--" ∈ ts

theorem Clashes.append {us : List Token} (h : Clashes us) (ts : List Token) : Clashes (ts ++ us) :=
  h.imp (mem_append_right ts) (mem_append_right ts)

theorem Clashes.cons {us : List Token} (h : Clashes us) (t : Token) : Clashes (t :: us) :=
  h.append [t]

mutual

/-- The text of a phrase that is not spaced has two signs that run together. -/
theorem clashes_text : (e : Phrase) → e.isWorded → e.isSpaced = false → {rest : List Char} →
    Stops rest → Clashes (lex (e.text.toList ++ rest))
  | .word _, _, hspaced, _, _ => by cases hspaced
  | .group e, hword, hspaced, rest, _ => by
    rw [Phrase.text_group, lex_bracket (by decide)]
    exact (clashes_text e hword hspaced (stops_cons (by decide) _)).cons _
  | .call receiver method args, hword, hspaced, rest, hrest => by
    simp only [Phrase.isWorded, Bool.and_eq_true] at hword
    rw [Phrase.text_call]
    cases hreceiver : receiver.isSpaced with
    | false => exact clashes_text receiver hword.1.1 hreceiver (stops_cons (by decide) _)
    | true =>
      have hargs : Phrase.areSpaced args = false := by simpa [Phrase.isSpaced, hreceiver] using hspaced
      rw [lex_text receiver hword.1.1 hreceiver (stops_cons (by decide) _), lex_bracket (by decide),
        lex_word hword.1.2 (stops_cons (by decide) _), lex_bracket (by decide)]
      exact ((((clashes_args args hword.2 hargs).cons _).cons _).cons _).append _
  | .sign op e, hword, hspaced, rest, hrest => by
    simp only [Phrase.isWorded, Bool.and_eq_true] at hword
    rw [Phrase.text_sign]
    cases hsame : (["+", "-"].contains op && e.lead == op) with
    | false =>
      have he : e.isSpaced = false := by
        rwa [Phrase.isSpaced, hsame] at hspaced
      rw [lex_sign hword.1 hword.2 hsame]
      exact (clashes_text e hword.2 he hrest).cons _
    | true =>
      rw [Bool.and_eq_true, beq_iff_eq, contains_eq_mem, decide_eq_true_eq] at hsame
      have hmem := mem_lex_sign hsame.1 hword.2 hsame.2 rest
      rcases mem_cons.1 hsame.1 with rfl | hop
      · exact .inl hmem
      · rw [mem_singleton.1 hop] at hmem ⊢
        exact .inr hmem
  | .binary op a b, hword, hspaced, rest, hrest => by
    simp only [Phrase.isWorded, Bool.and_eq_true, decide_eq_true_eq] at hword
    rw [Phrase.text_binary]
    cases ha : a.isSpaced with
    | false => exact clashes_text a hword.1.2 ha (stops_cons (by decide) _)
    | true =>
      have hb : b.isSpaced = false := by simpa [Phrase.isSpaced, ha] using hspaced
      rw [lex_text a hword.1.2 ha (stops_cons (by decide) _), lex_operator hword.1.1]
      exact ((clashes_text b hword.2 hb hrest).cons _).append _

theorem clashes_args : (es : List Phrase) → Phrase.areWorded es → Phrase.areSpaced es = false →
    {rest : List Char} → Clashes (lex ((Phrase.argText es).toList ++ ')' :: rest))
  | [], _, hspaced, _ => by cases hspaced
  | e :: es, hword, hspaced, rest => by
    simp only [Phrase.areWorded, Bool.and_eq_true] at hword
    rw [Phrase.argText_cons]
    cases he : e.isSpaced with
    | false => exact clashes_text e hword.1 he (Phrase.stops_restText rest es)
    | true =>
      have hes : Phrase.areSpaced es = false := by simpa [Phrase.areSpaced, he] using hspaced
      have hne : es ≠ [] := fun h => by rw [h] at hes; cases hes
      rw [lex_text e hword.1 he (Phrase.stops_restText rest es), lex_restText hne]
      exact ((clashes_args es hword.2 hes).cons _).append _

end

/-- Two signs that run together are not read. -/
theorem run_of_clashes {ts : List Token} (h : Clashes ts) (s : State) : run s ts = none := by
  have hstep : ∀ op ∈ ["++", "--"], ∀ s, step s (.mark op) = none := by
    intro op hop s
    simp only [mem_cons, not_mem_nil, or_false] at hop
    rcases hop with rfl | rfl <;> cases s <;> rfl
  induction ts generalizing s with
  | nil => rcases h with h | h <;> cases h
  | cons t ts ih =>
    rw [run_cons]
    have hcases : t = .mark "++" ∨ t = .mark "--" ∨ Clashes ts := by
      rcases h with h | h
      · rcases mem_cons.1 h with h | h
        · exact .inl h.symm
        · exact .inr (.inr (.inl h))
      · rcases mem_cons.1 h with h | h
        · exact .inr (.inl h.symm)
        · exact .inr (.inr (.inr h))
    rcases hcases with rfl | rfl | h
    · rw [hstep _ (by decide)]
      rfl
    · rw [hstep _ (by decide)]
      rfl
    · cases step s t with
      | none => rfl
      | some s' => exact ih h s'

/-- The text of a phrase is read to the phrase exactly when the phrase is grouped and spaced. -/
theorem read_text_iff (hword : e.isWorded) :
    read e.text = some e ↔ e.isGrouped ∧ e.isSpaced := by
  have htext : e.text.toList = e.text.toList ++ [] := (append_nil _).symm
  refine ⟨fun h => ⟨isGrouped_of_readTokens h, ?_⟩, fun ⟨hgrouped, hspaced⟩ => ?_⟩
  · by_contra hspaced
    have hclashes := clashes_text e hword (Bool.eq_false_iff.2 hspaced) stops_nil
    rw [read, htext, readTokens, run_of_clashes hclashes] at h
    cases h
  · rw [read, htext, lex_text e hword hspaced stops_nil]
    exact (append_nil e.tokens).symm ▸ readTokens_tokens hgrouped

end QueryScribe.Java
