import QueryScribe.Compile
import QueryScribe.Proofs.Locality.Visit
import QueryScribe.Proofs.Quoting.Parts
import QueryScribe.Proofs.Values
import QueryScribe.Target

/-!
# Where a written string closes

A string is written between two quotes of one kind. No quote of that kind inside is the end of it: each
has an odd number of backslashes before it, and the backslashes at the end, if there are any, leave the
closing quote alone (`Enclosed`). So whatever the tokens of a string hold, none of it gets out of what is
written for it (`string_encloses_its_tokens`).

Reading from the left, a backslash escapes the character after it (`Escaped`); counting backslashes back
from a character says the same, since a run of them is read in pairs (`leavesEscape_iff_odd`). The bodies of
tokens in one quote and in three have every backslash paired (`paired_body`), so this holds of bodies in a
row, and quoting keeps it (`escaped_inner_iff`). The same holds where a token is read: it ends at the first
quote that no backslash escapes (`string?_ends_at_first_quote`).
-/

namespace QueryScribe

open List

namespace Quoting

variable {p : Char → Prop} {q c : Char} {cs before after : List Char}

/-- The number of backslashes in a row at the end of a text. -/
def backslashesAtEnd (cs : List Char) : Nat := (cs.reverse.takeWhile (· == '\\')).length

/-- A text between two quotes that is closed by the last one: inside, an odd number of backslashes stands
before every such quote, and an even number at the end. -/
def Enclosed (q : Char) (text : List Char) : Prop :=
  ∃ inside, text = q :: (inside ++ [q]) ∧
    (∀ before after, inside = before ++ q :: after → backslashesAtEnd before % 2 = 1) ∧
    backslashesAtEnd inside % 2 = 0

theorem backslashesAtEnd_concat (cs : List Char) (c : Char) :
    backslashesAtEnd (cs ++ [c]) = if c = '\\' then backslashesAtEnd cs + 1 else 0 := by
  unfold backslashesAtEnd
  rw [reverse_concat, takeWhile_cons]
  by_cases hc : c = '\\' <;> simp [hc]

/-- Whether a backslash at the end of a text escapes what comes after it. -/
def leavesEscape (cs : List Char) : Bool := cs.foldl (fun escape c => c == '\\' && !escape) false

theorem leavesEscape_plain (hc : c ≠ '\\') (cs : List Char) :
    leavesEscape (c :: cs) = leavesEscape cs := by
  rw [leavesEscape, foldl_cons, beq_false_of_ne hc, Bool.false_and]
  rfl

theorem leavesEscape_pair (c : Char) (cs : List Char) :
    leavesEscape ('\\' :: c :: cs) = leavesEscape cs := by
  simp [leavesEscape]

/-- Backslashes escape in pairs, so the last one escapes if there is an odd number of them. -/
theorem leavesEscape_iff_odd (cs : List Char) :
    leavesEscape cs ↔ backslashesAtEnd cs % 2 = 1 := by
  induction cs using List.reverseRecOn with
  | nil => decide
  | append_singleton cs c ih =>
    rw [backslashesAtEnd_concat, leavesEscape, foldl_append, foldl_cons, foldl_nil]
    change (c == '\\' && !leavesEscape cs) ↔ _
    by_cases hc : c = '\\'
    · rw [if_pos hc, Bool.and_eq_true, Bool.not_eq_true', ← Bool.not_eq_true, ih]
      simp only [hc, beq_self_eq_true, true_and]
      omega
    · simp [hc]

theorem leavesEscape_eq_false_iff (cs : List Char) :
    leavesEscape cs = false ↔ backslashesAtEnd cs % 2 = 0 := by
  rw [← Bool.not_eq_true, leavesEscape_iff_odd]
  omega

theorem Escaped.leavesEscape_eq_false (h : Escaped p cs) : leavesEscape cs = false := by
  induction h with
  | nil => rfl
  | plain hc _ _ ih => rw [leavesEscape_plain hc, ih]
  | pair _ ih => rw [leavesEscape_pair, ih]

/-- A character of a body that no backslash escapes has the property. -/
theorem Escaped.of_not_leavesEscape (h : Escaped p cs) (hc : c ≠ '\\')
    (hcs : cs = before ++ c :: after) (hbefore : leavesEscape before = false) : p c := by
  induction h generalizing before with
  | nil => simp at hcs
  | @plain d ds hd hp _ ih =>
    cases before with
    | nil =>
      obtain ⟨rfl, -⟩ := List.cons.inj hcs
      exact hp
    | cons e before =>
      obtain ⟨rfl, htail⟩ := List.cons.inj hcs
      rw [leavesEscape_plain hd] at hbefore
      exact ih htail hbefore
  | @pair d ds _ ih =>
    -- The pair is read as a whole: the character is neither its backslash nor what that escapes.
    match before with
    | [] => exact absurd (List.cons.inj hcs).1.symm hc
    | [e] =>
      obtain ⟨rfl, -⟩ := List.cons.inj hcs
      exact absurd hbefore (by decide)
    | e :: e' :: before =>
      obtain ⟨rfl, htail⟩ := List.cons.inj hcs
      obtain ⟨rfl, hrest⟩ := List.cons.inj htail
      rw [leavesEscape_pair] at hbefore
      exact ih hrest hbefore

theorem Escaped.enclosed (h : Escaped (· ≠ q) cs) (hq : q ≠ '\\') : Enclosed q (q :: (cs ++ [q])) := by
  refine ⟨cs, rfl, fun before after hcs => ?_, ?_⟩
  · rw [← leavesEscape_iff_odd]
    by_contra hbefore
    exact h.of_not_leavesEscape hq hcs (Bool.not_eq_true _ ▸ hbefore) rfl
  · exact (leavesEscape_eq_false_iff cs).1 h.leavesEscape_eq_false

/-- The first quote after the opening one that has an even number of backslashes before it ends the
text. -/
theorem Enclosed.eq_nil_of_even {text : List Char} (h : Enclosed q text)
    (htext : text = q :: (before ++ q :: after)) (heven : backslashesAtEnd before % 2 = 0) :
    after = [] := by
  obtain ⟨inside, rfl, hinside, -⟩ := h
  have hsplit := (List.cons.inj htext).2
  by_contra hne
  obtain ⟨rest, last, rfl⟩ := eq_nil_or_concat after |>.resolve_left hne
  have hodd := hinside before rest (by
    rw [concat_eq_append, ← cons_append, ← append_assoc] at hsplit
    exact (append_inj' hsplit rfl).1)
  omega

end Quoting

namespace StringToken

open Quoting Lexer

variable {letters rest inside : List Char} {q : Char}

/-! ## The first quote that no backslash escapes -/

/-- What stands on the same line before a quote that no backslash escapes. -/
def EndsAt (q : Char) (rest inside : List Char) : Prop :=
  inside ++ [q] <+: rest ∧ '\n' ∉ inside ∧ backslashesAtEnd inside % 2 = 0

/-- The scan for a closing quote does not get past one that no backslash escapes. -/
theorem exists_closeShort_le (hq : q ≠ '\\') (hbreak : q ≠ '\n') (after : List Char) :
    ∀ {inside : List Char}, '\n' ∉ inside → leavesEscape inside = false →
      ∃ n ≤ inside.length + 1, closeShort q (inside ++ q :: after) = some n
  | [], _, _ => ⟨1, Nat.le_refl 1, by simp [closeShort_plain hq, hbreak]⟩
  | c :: cs, hline, hescape => by
    obtain ⟨hc, hcs⟩ := not_or.1 (mem_cons.not.1 hline)
    by_cases hslash : c = '\\'
    · subst hslash
      -- A backslash is read together with what it escapes.
      match cs with
      | [] => cases hescape
      | d :: ds =>
        obtain ⟨hd, hds⟩ := not_or.1 (mem_cons.not.1 hcs)
        rw [leavesEscape_pair] at hescape
        obtain ⟨n, hn, hclose⟩ := exists_closeShort_le hq hbreak after hds hescape
        refine ⟨n + 2, by simp only [length_cons]; omega, ?_⟩
        rw [cons_append, cons_append, closeShort_escape, if_neg (Ne.symm hd), hclose]
        rfl
    · rw [leavesEscape_plain hslash] at hescape
      rw [cons_append, closeShort_plain hslash, if_neg (Ne.symm hc)]
      split
      · exact ⟨1, by omega, rfl⟩
      · obtain ⟨n, hn, hclose⟩ := exists_closeShort_le hq hbreak after hcs hescape
        exact ⟨n + 1, by simp only [length_cons]; omega, by rw [hclose]; rfl⟩

theorem EndsAt.closeShort (h : EndsAt q rest inside) (hq : isQuote q) :
    ∃ n ≤ inside.length + 1, closeShort q rest = some n := by
  obtain ⟨⟨after, rfl⟩, hline, heven⟩ := h
  rw [append_assoc]
  exact exists_closeShort_le (facts_of_isQuote hq).1 (ne_of_isQuote hq).2 after hline
    ((leavesEscape_eq_false_iff inside).2 heven)

/-- The scan for a closing quote ends after the first one that no backslash escapes. -/
theorem exists_endsAt_of_closeShort (hq : isQuote q) {n : Nat} (h : closeShort q rest = some n) :
    ∃ inside, EndsAt q rest inside ∧ (∀ other, EndsAt q rest other → inside.length ≤ other.length) ∧
      n = inside.length + 1 ∧ Escaped (· ≠ q) inside := by
  obtain ⟨inside, after, rfl, rfl, hescaped, hline⟩ := exists_of_closeShort (facts_of_isQuote hq).1 h
  have heven := (leavesEscape_eq_false_iff inside).1 hescaped.leavesEscape_eq_false
  refine ⟨inside, ⟨⟨after, by simp⟩, hline, heven⟩, fun other hother => ?_, rfl, hescaped⟩
  obtain ⟨n, hn, hclose⟩ := hother.closeShort hq
  obtain rfl := Option.some.inj (h.symm.trans hclose)
  omega

/-! ## Tokens in three quotes -/

theorem exists_of_closeLong {cs : List Char} {n : Nat} (h : Lexer.closeLong q cs = some n) :
    ∃ inside rest, cs = inside ++ q :: q :: q :: rest ∧
      n = inside.length + 3 ∧ Escaped (fun _ => True) inside := by
  fun_induction Lexer.closeLong q cs generalizing n with
  | case1 => cases h
  | case2 c cs ih =>
    obtain ⟨m, hm, rfl⟩ := Option.map_eq_some_iff.1 h
    obtain ⟨inside, rest, rfl, rfl, hinside⟩ := ih hm
    exact ⟨'\\' :: c :: inside, rest, rfl, rfl, .pair hinside⟩
  | case3 c cs _ hquotes =>
    cases h
    obtain ⟨rest, hrest⟩ := isPrefixOf_iff_prefix.1 hquotes
    exact ⟨[], rest, hrest.symm, rfl, .nil⟩
  | case4 c cs hpair _ ih =>
    obtain ⟨m, hm, rfl⟩ := Option.map_eq_some_iff.1 h
    obtain ⟨inside, rest, rfl, rfl, hinside⟩ := ih hm
    refine ⟨c :: inside, rest, rfl, rfl, .plain ?_ trivial hinside⟩
    -- A backslash with something after it is read together with that.
    rintro rfl
    obtain ⟨d, ds, hds⟩ : ∃ d ds, inside ++ q :: q :: q :: rest = d :: ds :=
      exists_cons_of_ne_nil (by simp)
    exact hpair d ds rfl hds

theorem exists_of_longString? {cs : List Char} (h : Lexer.longString? cs = some cs.length) :
    ∃ letters q inside, Lexer.isMark letters ∧ Lexer.isQuote q ∧
      cs = letters ++ q :: q :: q :: (inside ++ [q, q, q]) ∧ Escaped (fun _ => True) inside := by
  obtain ⟨letters, q, rest, m, hletters, hq, rfl, hlong, hm, hlength⟩ := Lexer.longString?_eq_some.1 h
  obtain ⟨tail, rfl⟩ := isPrefixOf_iff_prefix.1 hlong
  obtain ⟨inside, after, hinside, rfl, hpaired⟩ := exists_of_closeLong hm
  have htail : tail = inside ++ q :: q :: q :: after := hinside
  subst htail
  have hafter : after = [] := by
    simp only [length_append, length_cons, length_nil] at hlength
    exact length_eq_zero_iff.1 (by omega)
  exact ⟨letters, q, inside, hletters, hq, by rw [hafter]; simp, hpaired⟩

/-- The body of a token in three quotes is what stands between them, with the backslashes of a raw token
doubled. -/
theorem body_long (hletters : Lexer.isMark letters) (hq : Lexer.isQuote q)
    (inside : List Char) : body (letters ++ q :: q :: q :: (inside ++ [q, q, q])) =
      if letters.any (fun c => c.toLower = 'r') then doubleBackslashes inside else inside := by
  have hempty : Closed letters q [] := ⟨hletters, hq, .nil⟩
  obtain ⟨htake, hdrop⟩ := span_isMark hempty (q :: q :: (inside ++ [q, q, q]))
  obtain ⟨-, -, hlength⟩ := isMark_of_closed hempty
  have hbefore : beforeQuote? [q, q, q] (inside ++ [q, q, q]) = some inside := by
    have hend : [q, q, q].isSuffixOf (inside ++ [q, q, q]) := by simp
    simp [beforeQuote?, dropEnd?, hend]
  have hfound : quotes.findSome? (fun quote =>
      if quote.isPrefixOf (q :: q :: q :: (inside ++ [q, q, q])) then
        beforeQuote? quote ((q :: q :: q :: (inside ++ [q, q, q])).drop quote.length)
      else none) = some inside := by
    have hcases : q = '\'' ∨ q = '"' := by simpa [Lexer.isQuote, or_comm] using hq
    rcases hcases with rfl | rfl <;> simp [quotes, hbefore]
  simp only [body, htake, hdrop, if_neg (Nat.not_lt.2 hlength), hfound]

/-! ## All tokens -/

/-- A text that is one string token, in one quote or in three. -/
def IsToken (cs : List Char) : Prop :=
  Lexer.string? cs = some cs.length ∨ Lexer.longString? cs = some cs.length

theorem paired_body {token : List Char} (h : IsToken token) :
    Escaped (fun _ => True) (body token) := by
  have hdoubled (cs : List Char) : Escaped (fun _ => True) (doubleBackslashes cs) :=
    escaped_doubleBackslashes_iff.2 fun _ _ _ => trivial
  rcases h with h | h
  · obtain ⟨letters, q, inside, hclosed, -, rfl⟩ := string?_eq_length_iff.1 h
    rw [body_eq hclosed]
    split
    · exact hdoubled inside
    · exact hclosed.paired
  · obtain ⟨letters, q, inside, hletters, hq, rfl, hpaired⟩ := exists_of_longString? h
    rw [body_long hletters hq]
    split
    · exact hdoubled inside
    · exact hpaired

theorem enclosed_inner {tokens : List (List Char)} (h : ∀ token ∈ tokens, IsToken token) {q o : Char}
    (hq : Lexer.isQuote q) (ho : Lexer.isQuote o) (hqo : q ≠ o) :
    Enclosed q (q :: (inner q o (tokens.flatMap body) ++ [q])) := by
  have hbodies : ∀ cs ∈ tokens.map body, Escaped (fun _ => True) cs :=
    forall_mem_map.2 fun token htoken => paired_body (h token htoken)
  have hbody : Escaped (fun _ => True) (tokens.flatMap body) := by
    rw [flatMap_def]
    exact (Escaped.flatten_iff hbodies).2 hbodies
  have hinner : Escaped (fun c => c ≠ q ∧ True) (inner q o (tokens.flatMap body)) :=
    (escaped_inner_iff hqo (facts_of_isQuote ho).1 trivial trivial hbody).2 hbody
  exact (hinner.mono fun _ hc => hc.1).enclosed (facts_of_isQuote hq).1

end StringToken

open Quoting StringToken Lexer

theorem exec_render_stringLiteral {target : Target} {t : Tree} (hrule : t.isOf .stringLiteral)
    (source : Source) (b : Bool) (j : Journal) :
    (Render.exec (render target source b t) j).1 = .ok (target.writeString
      (String.ofList (t.tokens.flatMap fun token => StringToken.body token.text.toList))) := by
  rw [Renderer.render_eq_step]
  cases t with
  | leaf => cases hrule
  | node i rule span children =>
    obtain rfl : rule = .stringLiteral := by simpa [Tree.isOf, Tree.rule?] using hrule
    have htarget : (Renderer.below target source (.node i .stringLiteral span children)).target =
        target := Renderer.target_within _
    conv_rhs => rw [← htarget]
    rfl

theorem exists_enclosed_of_writeString {t : Tree} (hrule : t.isOf .stringLiteral)
    (htokens : ∀ token ∈ t.tokens, IsToken token.text.toList) {target : Target} {q o : Char}
    (hq : Lexer.isQuote q) (ho : Lexer.isQuote o) (hqo : q ≠ o)
    (hwrite : ∀ body, target.writeString (String.ofList body) =
      String.ofList (q :: (inner q o body ++ [q]))) :
    ∃ text : String,
      (∀ (source : Source) (b : Bool) (j : Journal),
        (Render.exec (render target source b t) j).1 = .ok text) ∧
      Enclosed q text.toList ∧
      ∀ before after, text.toList = q :: (before ++ q :: after) →
        backslashesAtEnd before % 2 = 0 → after = [] := by
  have htexts : ∀ text ∈ t.tokens.map (·.text.toList), IsToken text := forall_mem_map.2 htokens
  have henclosed := enclosed_inner htexts hq ho hqo
  rw [flatMap_map] at henclosed
  refine ⟨_, fun source b j => exec_render_stringLiteral hrule source b j, ?_, ?_⟩
  · rw [hwrite, String.toList_ofList]
    exact henclosed
  · rw [hwrite, String.toList_ofList]
    exact fun before after htext heven => henclosed.eq_nil_of_even htext heven

/-- A string made of any tokens is written in double quotes for Java and in single quotes for Python, and
is enclosed by them: no quote inside ends it, so the first quote after the opening one with an even number
of backslashes before it is the last character. -/
theorem string_encloses_its_tokens (t : Tree) (hrule : t.isOf .stringLiteral = true)
    (htokens : ∀ token ∈ t.tokens, IsToken token.text.toList) :
    ∀ (target : Target) (q : Char), (target = .java ∧ q = '"') ∨ (target = .python ∧ q = '\'') →
      ∃ text : String,
        (∀ (source : Source) (b : Bool) (j : Journal),
          (Render.exec (render target source b t) j).1 = .ok text) ∧
        Enclosed q text.toList ∧
        ∀ before after, text.toList = q :: (before ++ q :: after) →
          backslashesAtEnd before % 2 = 0 → after = [] := by
  rintro target q (⟨rfl, rfl⟩ | ⟨rfl, rfl⟩)
  · refine exists_enclosed_of_writeString (o := '\'') hrule htokens rfl rfl (by decide) fun body => ?_
    simp [Target.writeString, Target.java, Java.quote, double, Quoting.inner]
  · refine exists_enclosed_of_writeString (o := '"') hrule htokens rfl rfl (by decide) fun body => ?_
    simp [Target.writeString, Target.python, single, Quoting.inner]

/-- A raw token that ends in an escaped quote, and a long one with quotes and backslashes. -/
theorem string_encloses_raw_and_long :
    ∃ t ∈ ((parse "r'\\\"' \"\"\"it's \\\"\\\\\"\"\"").toOption.map Tree.nodes).getD [],
      t.tokens.map (·.text) = ["r'\\\"'", "\"\"\"it's \\\"\\\\\"\"\""] ∧
      (∃ text : String, (∀ (source : Source) (b : Bool) (j : Journal),
        (Render.exec (render .java source b t) j).1 = .ok text) ∧ Enclosed '"' text.toList) ∧
      ∃ text : String, (∀ (source : Source) (b : Bool) (j : Journal),
        (Render.exec (render .python source b t) j).1 = .ok text) ∧ Enclosed '\'' text.toList := by
  have h : ∃ t ∈ ((parse "r'\\\"' \"\"\"it's \\\"\\\\\"\"\"").toOption.map Tree.nodes).getD [],
      t.isOf .stringLiteral = true ∧
        t.tokens.map (·.text) = ["r'\\\"'", "\"\"\"it's \\\"\\\\\"\"\""] := by
    decide +kernel
  obtain ⟨t, ht, hrule, htexts⟩ := h
  have htokens : ∀ token ∈ t.tokens, IsToken token.text.toList := by
    have hall : ∀ text ∈ t.tokens.map (·.text), IsToken text.toList := by
      rw [htexts, List.forall_mem_cons, List.forall_mem_singleton]
      exact ⟨.inl (by decide +kernel), .inr (by decide +kernel)⟩
    exact fun token htoken => hall _ (List.mem_map_of_mem htoken)
  have hwritten := string_encloses_its_tokens t hrule htokens
  obtain ⟨java, hjava, hdouble, -⟩ := hwritten .java '"' (.inl ⟨rfl, rfl⟩)
  obtain ⟨python, hpython, hsingle, -⟩ := hwritten .python '\'' (.inr ⟨rfl, rfl⟩)
  exact ⟨t, ht, htexts, ⟨java, hjava, hdouble⟩, python, hpython, hsingle⟩

/-- A string in one quote ends at the first quote after the opening one that no backslash escapes. It is
read at a place with a mark and a quote exactly if no two more quotes follow and there is such a quote on
the line, and reaches up to the first one. The body of a string that is not raw is then the text between
the quotes: no quote in it is free of a backslash, and the backslashes at its end are paired. -/
theorem string?_ends_at_first_quote {text letters rest : List Char} {position : Nat} {q : Char}
    (hletters : Lexer.isMark letters) (hq : isQuote q)
    (htext : text.drop position = letters ++ q :: rest) :
    ((∃ n, string? (text.drop position) = some n) ↔
      ¬ [q, q] <+: rest ∧ ∃ inside, EndsAt q rest inside) ∧
    ∀ n, string? (text.drop position) = some n → ∃ inside, EndsAt q rest inside ∧
      (∀ other, EndsAt q rest other → inside.length ≤ other.length) ∧
      n = letters.length + inside.length + 2 ∧
      (text.drop position).take n = letters ++ q :: (inside ++ [q]) ∧
      ((∀ c ∈ letters, c.toLower ≠ 'r') → body ((text.drop position).take n) = inside ∧
        (∀ before after, inside = before ++ q :: after → backslashesAtEnd before % 2 = 1) ∧
        backslashesAtEnd inside % 2 = 0) := by
  rw [htext, string?_mark hletters hq]
  by_cases hlong : [q, q] <+: rest
  · rw [if_pos ( isPrefixOf_iff_prefix.2 hlong)]
    exact ⟨⟨nofun, fun h => absurd hlong h.1⟩, nofun⟩
  rw [if_neg (mt isPrefixOf_iff_prefix.1 hlong)]
  refine ⟨⟨fun ⟨n, h⟩ => ⟨hlong, ?_⟩, fun ⟨_, inside, hinside⟩ => ?_⟩, fun n h => ?_⟩
  · obtain ⟨m, hm, -⟩ := Option.map_eq_some_iff.1 h
    obtain ⟨inside, hinside, -⟩ := exists_endsAt_of_closeShort hq hm
    exact ⟨inside, hinside⟩
  · obtain ⟨m, -, hm⟩ := hinside.closeShort hq
    exact ⟨_, by rw [hm]; rfl⟩
  · obtain ⟨m, hm, rfl⟩ := Option.map_eq_some_iff.1 h
    obtain ⟨inside, hinside, hfirst, rfl, hescaped⟩ := exists_endsAt_of_closeShort hq hm
    have hclosed : Closed letters q inside := ⟨hletters, hq, hescaped⟩
    obtain ⟨after, rfl⟩ := hinside.1
    have htake : (letters ++ q :: (inside ++ [q] ++ after)).take
        (inside.length + 1 + (letters.length + 1)) = letters ++ q :: (inside ++ [q]) := by
      rw [← cons_append, ← append_assoc]
      exact take_left' (by simp only [length_append, length_cons, length_nil]; omega)
    refine ⟨inside, hinside, hfirst, by omega, htake, fun hraw => ⟨?_, ?_, hinside.2.2⟩⟩
    · have hplain : isRaw (letters ++ q :: (inside ++ [q])) = false := by
        rw [isRaw, (span_isMark hclosed _).1]
        simpa using hraw
      rw [htake, body_eq hclosed, hplain]
      rfl
    · obtain ⟨inside', htext', hodd, -⟩ := hescaped.enclosed (facts_of_isQuote hq).1
      obtain rfl : inside = inside' := append_cancel_right (List.cons.inj htext').2
      exact hodd

/-- A string with a mark, an escaped quote and paired backslashes at its end. -/
theorem string?_ends_after_paired_backslashes :
    ∃ n, string? ("[u'a\\'b\\\\', 'c']".toList.drop 1) = some n ∧
      body (("[u'a\\'b\\\\', 'c']".toList.drop 1).take n) = "a\\'b\\\\".toList := by
  have hends := string?_ends_at_first_quote (rfl : Lexer.isMark ['u']) (rfl : isQuote '\'')
    (rfl : "[u'a\\'b\\\\', 'c']".toList.drop 1 = ['u'] ++ '\'' :: "a\\'b\\\\', 'c']".toList)
  obtain ⟨n, hn⟩ := hends.1.2 ⟨by decide, "a\\'b\\\\".toList, by decide, by decide, by decide⟩
  obtain ⟨inside, -, -, -, htake, hbody⟩ := hends.2 n hn
  refine ⟨n, hn, (hbody (List.forall_mem_singleton.2 (by decide))).1.trans ?_⟩
  obtain rfl : 9 = n := Option.some.inj (Eq.trans (by decide +kernel) hn)
  exact append_cancel_right (List.cons.inj (List.cons.inj htake).2).2.symm
end QueryScribe
