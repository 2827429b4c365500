import QueryScribe.Proofs.Reader.Running

/-!
# The tokens of a text

Reading a text goes from token to token. `Walks` describes this way with the tokens that are met on
it, and a text is read to a tree if the way leads through all of it to a stack that can be closed
(`reads_iff`). The tokens can be listed (`tokens`), each with its place in the source, and for a source
that is read the list is that of the way.
-/

namespace QueryScribe

namespace Parser

/-! ## Ways through a text -/

/-- A reader goes through the whole rest of a text, meets these tokens and stands there then. -/
inductive Walks : Nat → List Char → Progress → List Token → Progress → Prop
  | nil {offset : Nat} {p : Progress} : Walks offset [] p [] p
  | skip {offset m : Nat} {c : Char} {cs : List Char} {p q : Progress} {ts : List Token} :
    Lexer.scan ((top p.stack).accepts .source) (c :: cs) = some ⟨none, m⟩ → 0 < m →
    Walks (offset + m) ((c :: cs).drop m) p ts q → Walks offset (c :: cs) p ts q
  | take {offset m : Nat} {c : Char} {cs : List Char} {p q r : Progress} {kind : Terminal}
    {ts : List Token} :
    Lexer.scan ((top p.stack).accepts .source) (c :: cs) = some ⟨some kind, m⟩ → 0 < m →
    Takes p ⟨kind, String.ofList ((c :: cs).take m), ⟨offset, offset + m⟩⟩ (.ok q) →
    Walks (offset + m) ((c :: cs).drop m) q ts r →
    Walks offset (c :: cs) p (⟨kind, String.ofList ((c :: cs).take m), ⟨offset, offset + m⟩⟩ :: ts) r

/-- A reader that stands at the end of a text has read a tree. -/
def Closes (p : Progress) (tree : Tree) : Prop :=
  ∃ q, FeedsAll p (p.layout.finish p.seen) (.ok q) ∧ Finishes q.stack (some tree)

/-- A text is read to a tree by going through it and closing what is open then. -/
theorem reads_iff {offset : Nat} {text : List Char} {p : Progress} {tree : Tree} :
    Reads offset text p (.ok tree) ↔ ∃ ts q, Walks offset text p ts q ∧ Closes q tree := by
  constructor
  · intro h
    generalize hr : (Except.ok tree : Except SyntaxFault Tree) = r at h
    induction h with
    | finish hfeeds hfinishes =>
      cases hr
      exact ⟨[], _, .nil, _, hfeeds, hfinishes⟩
    | incomplete => cases hr
    | unclosed => cases hr
    | stray => cases hr
    | skip hscan hm _ ih =>
      obtain ⟨ts, q, hwalks, hcloses⟩ := ih hr
      exact ⟨ts, q, .skip hscan hm hwalks, hcloses⟩
    | take hscan hm htakes _ ih =>
      obtain ⟨ts, q, hwalks, hcloses⟩ := ih hr
      exact ⟨_, q, .take hscan hm htakes hwalks, hcloses⟩
    | refuse => cases hr
  · rintro ⟨ts, q, hwalks, hcloses⟩
    induction hwalks with
    | nil =>
      obtain ⟨q, hfeeds, hfinishes⟩ := hcloses
      exact .finish hfeeds hfinishes
    | skip hscan hm _ ih => exact .skip hscan hm (ih hcloses)
    | take hscan hm htakes _ ih => exact .take hscan hm htakes (ih hcloses)

namespace Walks

variable {offset : Nat} {text : List Char} {p q : Progress} {ts : List Token}

theorem skip_of {m : Nat} (hscan : Lexer.scan ((top p.stack).accepts .source) text = some ⟨none, m⟩)
    (h : Walks (offset + m) (text.drop m) p ts q) : Walks offset text p ts q := by
  obtain ⟨hpos, hle⟩ := Lexer.scan_length hscan
  cases text with
  | nil => exact absurd hpos (Nat.not_lt.2 hle)
  | cons c cs => exact .skip hscan hpos h

theorem take_of {m : Nat} {kind : Terminal} {r : Progress}
    (hscan : Lexer.scan ((top p.stack).accepts .source) text = some ⟨some kind, m⟩)
    (htakes : Takes p ⟨kind, String.ofList (text.take m), ⟨offset, offset + m⟩⟩ (.ok q))
    (h : Walks (offset + m) (text.drop m) q ts r) :
    Walks offset text p (⟨kind, String.ofList (text.take m), ⟨offset, offset + m⟩⟩ :: ts) r := by
  obtain ⟨hpos, hle⟩ := Lexer.scan_length hscan
  cases text with
  | nil => exact absurd hpos (Nat.not_lt.2 hle)
  | cons c cs => exact .take hscan hpos htakes h

theorem place (h : Walks offset text p ts q) : ∀ t ∈ ts,
    offset ≤ t.span.start ∧ t.span.start < t.span.stop ∧ t.span.stop ≤ offset + text.length := by
  induction h with
  | nil => nofun
  | skip hscan hm _ ih =>
    intro t ht
    have hplace := ih t ht
    have hlength := (Lexer.scan_length hscan).2
    rw [List.length_drop] at hplace
    dsimp only at hlength
    omega
  | take hscan hm _ _ ih =>
    intro t ht
    have hlength := (Lexer.scan_length hscan).2
    dsimp only at hlength
    rcases List.mem_cons.1 ht with rfl | ht
    · dsimp only
      omega
    · have hplace := ih t ht
      rw [List.length_drop] at hplace
      omega

theorem exists_lexeme (h : Walks offset text p ts q) {t : Token} (ht : t ∈ ts)
    (hplace : offset < t.span.start) :
    ∃ l, Lexer.scan ((top p.stack).accepts .source) text = some l ∧
      offset + l.length ≤ t.span.start := by
  cases h with
  | nil => cases ht
  | skip hscan _ hrest => exact ⟨_, hscan, (hrest.place t ht).1⟩
  | take hscan _ _ hrest =>
    refine ⟨_, hscan, ?_⟩
    rcases List.mem_cons.1 ht with rfl | ht
    · exact absurd hplace (Nat.lt_irrefl _)
    · exact (hrest.place t ht).1

end Walks

/-! ## Listing the tokens -/

/-- The tokens that are found in the rest of a text from an offset on, in at most `n` lexemes. -/
def tokensWithin : Nat → Nat → List Char → Progress → List Token
  | _, _, [], _ => []
  | 0, _, _ :: _, _ => []
  | n + 1, offset, c :: cs, p =>
    match Lexer.scan ((top p.stack).accepts .source) (c :: cs) with
    | none => []
    | some ⟨none, m⟩ => tokensWithin n (offset + m) ((c :: cs).drop m) p
    | some ⟨some kind, m⟩ =>
      let t : Token := ⟨kind, String.ofList ((c :: cs).take m), ⟨offset, offset + m⟩⟩
      t :: match p.take .source t with
        | .ok q => tokensWithin n (offset + m) ((c :: cs).drop m) q
        | .error _ => []

theorem take_of_takes {accepts : Terminal → Bool} {cs : List Char} {p q : Progress} {kind : Terminal}
    {m : Nat} {span : Span} (h : ∃ symbols, Sound Symbol.Roots p.stack symbols)
    (hscan : Lexer.scan accepts cs = some ⟨some kind, m⟩)
    (htakes : Takes p ⟨kind, String.ofList (cs.take m), span⟩ (.ok q)) :
    p.take .source ⟨kind, String.ofList (cs.take m), span⟩ = .ok q ∧
      ∃ symbols, Sound Symbol.Roots q.stack symbols := by
  obtain ⟨symbols, h⟩ := h
  have hlexed := Lexer.lexed_of_scan hscan span
  have hkind : kind ≠ .endOfInput := by
    rintro rfl
    cases Lexer.isWritten_of_scan hscan
  have htake := (h.takes hlexed hkind).unique htakes
  exact ⟨htake, h.take closed_roots hlexed htake⟩

theorem Walks.tokensWithin_eq {offset : Nat} {text : List Char} {p q : Progress} {ts : List Token}
    (h : Walks offset text p ts q) (hsound : ∃ symbols, Sound Symbol.Roots p.stack symbols)
    {n : Nat} (hn : text.length ≤ n) : tokensWithin n offset text p = ts := by
  induction h generalizing n with
  | nil => rw [tokensWithin]
  | @skip offset m c cs p q ts hscan hm _ ih =>
    cases n with
    | zero => simp at hn
    | succ n =>
      rw [tokensWithin, hscan]
      refine ih hsound ?_
      rw [List.length_drop]
      omega
  | @take offset m c cs p q r kind ts hscan hm htakes _ ih =>
    cases n with
    | zero => simp at hn
    | succ n =>
      obtain ⟨htake, hsound'⟩ := take_of_takes hsound hscan htakes
      rw [tokensWithin, hscan]
      dsimp only
      rw [htake]
      refine congrArg (_ :: ·) (ih hsound' ?_)
      rw [List.length_drop]
      omega

end Parser

/-- The number of blanks at the start of a source. -/
def leadingBlanks (source : String) : Nat := (source.toList.takeWhile Text.isBlank).length

/-- The tokens of a source, with their places in it. -/
def tokens (source : String) : List Token :=
  Parser.tokensWithin (normalize source).length (leadingBlanks source) (normalize source) {}

/-- What is opened and not closed again once a token has been met. -/
def Token.openAfter (brackets : Nat) (t : Token) : Nat :=
  match t.kind with
  | .leftParen | .leftBracket | .leftBrace => brackets + 1
  | .rightParen | .rightBracket | .rightBrace => brackets - 1
  | _ => brackets

/-- The number of brackets that tokens open and do not close again. -/
def openBrackets (ts : List Token) : Nat := ts.foldl Token.openAfter 0

theorem Layout.brackets_step {l l' : Layout} {t : Token} (h : (l.step t).2 = .ok l') :
    l'.brackets = t.openAfter l.brackets := by
  unfold Layout.step at h
  unfold Token.openAfter
  split at h
  · simp only [*]
    split at h
    · cases h
      rfl
    · dsimp only at h
      split at h
      · cases h
        rfl
      · dsimp only at h
        split at h
        · cases h
          rfl
        · cases h
  all_goals
    cases h
    simp only [*]

theorem Parser.Takes.brackets {p q : Progress} {t : Token} (h : Takes p t (.ok q)) :
    q.layout.brackets = t.openAfter p.layout.brackets := by
  cases h with
  | take _ hlayout => exact Layout.brackets_step hlayout

end QueryScribe
