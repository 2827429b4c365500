import QueryScribe.Proofs.Lexeme.LineBreak
import QueryScribe.Proofs.Placement.Reading
import QueryScribe.Proofs.Placement.Writing

/-!
# Line breaks inside brackets

A line break that is put before a token inside brackets changes nothing: the lexemes before it are
found as they were (`Lexer.scan_insert`), the break itself is a token that layout drops, and from there
on the text is read as before, only further on (`Walks.insert`). The tree is therefore the same apart
from places, and so are the code and the imports (`compile_insertBreak`).
-/

namespace QueryScribe

open List

open Text

/-! ## Texts with a line break more -/

namespace Text

variable {p : Char → Bool}

theorem exists_eq_trimBy (p : Char → Bool) (cs : List Char) :
    ∃ stop, cs = cs.takeWhile p ++ trimBy p cs ++ stop ∧ (∀ c ∈ stop, p c) ∧
      (∀ c ∈ (trimBy p cs).head?, p c = false) ∧ ∀ c ∈ (trimBy p cs).getLast?, p c = false := by
  have hsplit : cs.dropWhile p = trimBy p cs ++ ((cs.dropWhile p).reverse.takeWhile p).reverse := by
    rw [trimBy, ← reverse_append, takeWhile_append_dropWhile, reverse_reverse]
  refine ⟨((cs.dropWhile p).reverse.takeWhile p).reverse, ?_, ?_, ?_, ?_⟩
  · rw [append_assoc, ← hsplit, takeWhile_append_dropWhile]
  · intro c hc
    exact mem_takeWhile_imp (mem_reverse.1 hc)
  · intro c hc
    have hhead : (cs.dropWhile p).head? = some c := by
      rw [hsplit, head?_append, Option.mem_def.1 hc]
      rfl
    have hnot := head?_dropWhile_not p cs
    rw [hhead] at hnot
    simpa using hnot
  · intro c hc
    rw [trimBy, getLast?_reverse] at hc
    have hnot := head?_dropWhile_not p (cs.dropWhile p).reverse
    rw [Option.mem_def.1 hc] at hnot
    simpa using hnot

end Text

/-- The source with a line break more, after so many characters. -/
def insertBreak (source : String) (place : Nat) : String :=
  String.ofList (source.toList.take place ++ '\n' :: source.toList.drop place)

/-- A line break that is put into a source stands in the text that is read, or at an end where it is
trimmed. -/
theorem normalize_insertBreak (source : String) {u v : List Char} (h : normalize source = u ++ v)
    (hv : v ≠ []) : normalize (insertBreak source (leadingBlanks source + u.length)) = normalize source ∨
      normalize (insertBreak source (leadingBlanks source + u.length)) = u ++ '\n' :: v := by
  obtain ⟨stop, htext, hstop, hhead, hlast⟩ := exists_eq_trimBy isBlank source.toList
  have hstart : ∀ c ∈ source.toList.takeWhile isBlank, isBlank c :=
    fun c hc => mem_takeWhile_imp hc
  have hbreak : isBlank '\n' := by decide
  unfold normalize trim at *
  unfold insertBreak leadingBlanks
  rw [String.toList_ofList]
  generalize source.toList.takeWhile isBlank = start at *
  generalize trimBy isBlank source.toList = core at *
  rw [htext]
  -- The last character of the text is the line break that was added.
  obtain ⟨v', rfl, hcore⟩ : ∃ v', v = v' ++ ['\n'] ∧ core = u ++ v' := by
    have hv' := dropLast_append_getLast hv
    have hparts : core ++ ['\n'] = (u ++ v.dropLast) ++ [v.getLast hv] := by
      rw [h, append_assoc, hv']
    obtain ⟨hcore, hend⟩ := append_inj' hparts rfl
    exact ⟨v.dropLast, by rw [List.cons.inj hend |>.1, hv'], hcore⟩
  subst hcore
  have hcut : (start ++ (u ++ v') ++ stop).take (start.length + u.length) ++
      '\n' :: (start ++ (u ++ v') ++ stop).drop (start.length + u.length) =
        start ++ u ++ '\n' :: (v' ++ stop) := by
    have hassoc : start ++ (u ++ v') ++ stop = (start ++ u) ++ (v' ++ stop) := by
      simp only [append_assoc]
    rw [hassoc, ← length_append, take_left, drop_left]
  rw [hcut]
  cases u with
  | nil =>
    left
    have hblank : ∀ c ∈ start ++ ['\n'], isBlank c := by
      simpa [or_imp, forall_and, hbreak] using hstart
    have htrim := trimBy_append hblank hstop hhead hlast
    simpa using congrArg (· ++ ['\n']) htrim
  | cons c u =>
    rcases eq_nil_or_concat' v' with rfl | ⟨w, d, rfl⟩
    · left
      have hblank : ∀ c ∈ '\n' :: stop, isBlank c := by
        simpa [hbreak] using hstop
      have htrim := trimBy_append hstart hblank hhead hlast
      simpa using congrArg (· ++ ['\n']) htrim
    · right
      have hd : isBlank d = false := by
        refine hlast d ?_
        rw [← append_assoc, getLast?_concat]
        rfl
      have htrim : trimBy isBlank
          (start ++ (c :: u ++ '\n' :: w ++ [d]) ++ stop) = c :: u ++ '\n' :: w ++ [d] := by
        refine trimBy_append hstart hstop ?_ ?_
        · simpa using hhead
        · simpa only [getLast?_concat, Option.mem_some_iff, forall_eq'] using hd
      simpa using congrArg (· ++ ['\n']) htrim

namespace Parser

/-! ## Line breaks that are dropped -/

variable {offset : Nat} {text : List Char} {p q : Progress} {ts before after : List Token} {t : Token}

theorem takes_of_newline (hopen : 0 < p.layout.brackets) (hkind : t.kind = .newline) :
    Takes p t (.ok { p with seen := t.span }) := by
  have hstep : p.layout.step t = ([], .ok p.layout) := by
    unfold Layout.step
    rw [hkind]
    exact if_pos hopen
  refine .take (q := p) ?_ ?_
  · rw [hstep]
    exact .nil
  · rw [hstep]

theorem Walks.eq_nil_of_start (h : Walks offset text p (before ++ t :: after) q)
    (hplace : t.span.start = offset) : before = [] := by
  generalize hts : before ++ t :: after = ts at h
  cases h with
  | nil => simp at hts
  | skip _ hm hrest =>
    have hstart := (hrest.place t (by simp [← hts])).1
    omega
  | take _ hm _ hrest =>
    cases before with
    | nil => rfl
    | cons s before =>
      obtain ⟨-, rfl⟩ := List.cons.inj hts
      have hstart := (hrest.place t (by simp)).1
      omega

/-- A text can be gone through with a line break before it inside brackets. -/
theorem Walks.insert_first (h : Walks offset text p (t :: after) q) (hplace : t.span.start = offset)
    (hopen : 0 < p.layout.brackets) :
    ∃ ts' q', Walks offset ('\n' :: text) p ts' q' ∧ q.Alike q' := by
  have hwalks := h
  generalize hts : t :: after = ts at h
  cases h with
  | nil => cases hts
  | skip _ hm hrest =>
    have hstart := (hrest.place t (hts ▸ (.head _))).1
    omega
  | @take _ m c cs _ q₁ _ kind ts hscan hm htakes hrest =>
    by_cases hkind : kind = .newline
    · -- The two line breaks become one, after which the text goes on as it did.
      subst hkind
      have hscan' := Lexer.scan_break ((top p.stack).accepts .source) (c :: cs)
      rw [Lexer.lineEnd_of_newline hscan, Nat.add_comm] at hscan'
      have hq₁ := Except.ok.inj (htakes.unique (takes_of_newline hopen rfl))
      have hnext : q₁.Alike { p with seen := ⟨offset, offset + (m + 1)⟩ } := hq₁ ▸ ⟨rfl, rfl⟩
      obtain ⟨ts', q', hwalks', hq⟩ := hrest.alike hnext (offset + (m + 1))
      exact ⟨_, q', .take hscan' (Nat.succ_pos m) (takes_of_newline hopen rfl) hwalks', hq⟩
    · have hscan' := Lexer.scan_break ((top p.stack).accepts .source) (c :: cs)
      rw [Lexer.lineEnd_of_ne_newline hscan hkind] at hscan'
      have hnext : p.Alike { p with seen := ⟨offset, offset + 1⟩ } := ⟨rfl, rfl⟩
      obtain ⟨ts', q', hwalks', hq⟩ := hwalks.alike hnext (offset + 1)
      exact ⟨_, q', .take hscan' Nat.one_pos (takes_of_newline hopen rfl) hwalks', hq⟩

/-- A lexeme of a way that ends before a token lies before the place where that token starts. -/
theorem Walks.inside {u v : List Char} {l : Lexer.Lexeme}
    (h : Walks (offset + l.length) ((u ++ v).drop l.length) p ts q) (ht : t ∈ ts)
    (hplace : t.span.start = offset + u.length) : l.length ≤ u.length ∧ Lexer.Inside u v l := by
  have hstart := (h.place t ht).1
  refine ⟨by omega, ?_⟩
  by_cases hlength : l.length = u.length
  · exact .inl hlength
  · obtain ⟨l', hscan, hle⟩ := h.exists_lexeme ht (by omega)
    exact .inr ⟨_, l', hscan, by omega⟩

/-- A text can be gone through with a line break before a token inside brackets. -/
theorem Walks.insert (h : Walks offset text p ts q) (hts : ts = before ++ t :: after)
    {u v : List Char} (htext : text = u ++ v) (hplace : t.span.start = offset + u.length)
    (hopen : 0 < before.foldl Token.openAfter p.layout.brackets) :
    ∃ ts' q', Walks offset (u ++ '\n' :: v) p ts' q' ∧ q.Alike q' := by
  have hv : v ≠ [] := by
    rintro rfl
    have hspan := h.place t (by simp [hts])
    rw [htext, append_nil] at hspan
    omega
  induction h generalizing before u with
  | nil => simp at hts
  | @skip offset m c cs p q ts hscan hm hrest ih =>
    have ht : t ∈ ts := by simp [hts]
    rw [htext] at hscan hrest ih
    obtain ⟨hle, hinside⟩ := hrest.inside (l := ⟨none, m⟩) ht hplace
    have hscan' := Lexer.scan_insert hscan hle hv hinside
    rw [Lexer.Lexeme.broken_of_ne (by simp)] at hscan'
    dsimp only at hle
    obtain ⟨ts', q', hwalks, hq⟩ := ih hts (drop_append_of_le_length hle)
      (by rw [length_drop]; omega) hopen
    rw [← drop_append_of_le_length hle] at hwalks
    exact ⟨ts', q', .skip_of hscan' hwalks, hq⟩
  | @take offset m c cs p q r kind ts hscan hm htakes hrest ih =>
    cases before with
    | nil =>
      -- The token before which the line break is put stands here.
      obtain ⟨rfl, rfl⟩ := List.cons.inj hts
      obtain rfl : u = [] := by
        rw [← length_eq_zero_iff]
        dsimp only at hplace
        omega
      subst htext
      exact (Walks.take hscan hm htakes hrest).insert_first rfl hopen
    | cons s before =>
      obtain ⟨rfl, rfl⟩ := List.cons.inj hts
      rw [foldl_cons, ← htakes.brackets] at hopen
      rw [htext] at hscan hrest ih htakes
      obtain ⟨hle, hinside⟩ := hrest.inside (l := ⟨some kind, m⟩) (by simp) hplace
      have hscan' := Lexer.scan_insert hscan hle hv hinside
      dsimp only at hle
      by_cases hend : kind = .newline ∧ m = u.length
      · -- A line break that ends there gets longer.
        obtain ⟨rfl, rfl⟩ := hend
        obtain rfl := hrest.eq_nil_of_start hplace
        have hopen' : 0 < p.layout.brackets := by
          rw [foldl_nil, htakes.brackets] at hopen
          exact hopen
        rw [Lexer.Lexeme.broken, if_pos ⟨rfl, rfl⟩] at hscan'
        have hq := Except.ok.inj (htakes.unique (takes_of_newline hopen' rfl))
        have hnext : q.Alike { p with seen := ⟨offset, offset + (u.length + 1)⟩ } := hq ▸ ⟨rfl, rfl⟩
        obtain ⟨ts', r', hwalks, hr⟩ := hrest.alike hnext (offset + (u.length + 1))
        have hdrop : (u ++ '\n' :: v).drop (u.length + 1) = v := by
          rw [drop_append, drop_of_length_le (Nat.le_succ _), Nat.add_sub_cancel_left]
          rfl
        rw [drop_left, ← hdrop] at hwalks
        exact ⟨_, r', .take_of hscan' (takes_of_newline hopen' rfl) hwalks, hr⟩
      · rw [Lexer.Lexeme.broken, if_neg (by simpa using hend)] at hscan'
        obtain ⟨ts', r', hwalks, hr⟩ := ih rfl (drop_append_of_le_length hle)
          (by rw [length_drop]; omega) hopen
        rw [← drop_append_of_le_length hle] at hwalks
        rw [take_append_of_le_length hle, ← take_append_of_le_length hle] at htakes
        exact ⟨_, r', .take_of hscan' htakes hwalks, hr⟩

end Parser

/-! ## Compiling with a line break more -/

/-- A line break that is put before a token inside brackets leaves the tree as it is apart from
places. -/
theorem parse_insertBreak {source : String} {root : Tree} {before after : List Token} {t : Token}
    (h : parse source = .ok root) (htokens : tokens source = before ++ t :: after)
    (hopen : 0 < openBrackets before) :
    ∃ root', parse (insertBreak source t.span.start) = .ok root' ∧
      root'.unplaced = root.unplaced := by
  obtain ⟨result, hreads, hparse⟩ := reads_parse source
  rw [h] at hparse
  cases result with
  | error fault => cases hparse
  | ok tree =>
    obtain rfl : root = (tree.numberFrom 0).1 := Except.ok.inj hparse
    obtain ⟨ts, q, hwalks, hcloses⟩ := Parser.reads_iff.1 hreads
    -- The tokens are listed with their places in the source, which may start with blanks.
    obtain ⟨ts', q', hwalks', hq⟩ := hwalks.alike ⟨rfl, rfl⟩ (leadingBlanks source)
    have hts : ts' = before ++ t :: after := by
      rw [← htokens, tokens, hwalks'.tokensWithin_eq ⟨[], trivial⟩ (Nat.le_refl _)]
    obtain ⟨hstart, hspan, hstop⟩ := hwalks'.place t (by simp [hts])
    obtain ⟨place, hplace⟩ := Nat.exists_eq_add_of_le hstart
    have hlength : ((normalize source).take place).length = place := by
      rw [length_take]
      omega
    have htext := (take_append_drop place (normalize source)).symm
    have hv : (normalize source).drop place ≠ [] := by
      rw [Ne, drop_eq_nil_iff]
      omega
    have hinsert := normalize_insertBreak source htext hv
    rw [hlength, ← hplace] at hinsert
    rcases hinsert with hsame | hinsert
    · refine ⟨_, ?_, rfl⟩
      rw [← h]
      unfold parse
      rw [hsame]
    · obtain ⟨_, r, hwalks, hr⟩ := hwalks'.insert hts htext (by rw [hlength, hplace]) hopen
      obtain ⟨_, r', hwalks, hr'⟩ := hwalks.alike ⟨rfl, rfl⟩ 0
      rw [← hinsert] at hwalks
      obtain ⟨tree', hcloses', heq⟩ := hcloses.alike ((hq.trans hr).trans hr')
      refine ⟨(tree'.numberFrom 0).1, parse_of_reads (Parser.reads_iff.2 ⟨_, r', hwalks, hcloses'⟩), ?_⟩
      have hnumbers (tree : Tree) :
          ((tree.numberFrom 0).1).unplaced = (tree.unplaced.numberFrom 0).1 := by
        rw [Tree.numberFrom_unplaced]
      rw [hnumbers, hnumbers, heq]

/-- A line break that is put before the second of two tokens in a row, inside brackets, changes neither
the code nor the imports. -/
theorem compile_insertBreak {target : Target} {options : Options} {source : String} {output : Output}
    {before after : List Token} {s t : Token} (hlimit : options.limit = none)
    (houtput : compile target options source = .ok output)
    (htokens : tokens source = before ++ s :: t :: after) (hopen : 0 < openBrackets (before ++ [s])) :
    compile target options (insertBreak source t.span.start) = .ok output := by
  obtain ⟨-, root, hparse, -⟩ := exists_of_compile_eq_ok houtput
  have htokens' : tokens source = (before ++ [s]) ++ t :: after := by
    rw [htokens, List.append_assoc]
    rfl
  obtain ⟨root', hparse', hroot⟩ := parse_insertBreak hparse htokens' hopen
  exact compile_eq_of_unplaced hlimit hparse hparse' hroot houtput

/-- A line break after a comment and a line break, in an array of a document that becomes a query. -/
theorem compile_insertBreak_filter :
    insertBreak " \x7b'a': [1, # one\n 2]\x7d" 18 = " \x7b'a': [1, # one\n \n2]\x7d" ∧
      ∃ output ∈ (compile .java {} " \x7b'a': [1, # one\n 2]\x7d").toOption,
        output.code = "eq(\"a\", Arrays.asList(1L, 2L))" ∧
          compile .java {} (insertBreak " \x7b'a': [1, # one\n 2]\x7d" 18) = .ok output := by
  have hcompile : ∃ output ∈ (compile .java {} " \x7b'a': [1, # one\n 2]\x7d").toOption,
      output.code = "eq(\"a\", Arrays.asList(1L, 2L))" := by decide +kernel
  have htokens : ∃ before after, tokens " \x7b'a': [1, # one\n 2]\x7d" =
      before ++ ⟨.newline, "# one\n ", ⟨11, 18⟩⟩ :: ⟨.decNumber, "2", ⟨18, 19⟩⟩ :: after ∧
        openBrackets (before ++ [⟨.newline, "# one\n ", ⟨11, 18⟩⟩]) = 2 :=
    ⟨(tokens " \x7b'a': [1, # one\n 2]\x7d").take 6, (tokens " \x7b'a': [1, # one\n 2]\x7d").drop 8,
      by decide +kernel⟩
  obtain ⟨output, houtput, hcode⟩ := hcompile
  obtain ⟨before, after, htokens, hopen⟩ := htokens
  have hbreak := compile_insertBreak rfl (eq_ok_of_mem_toOption houtput) htokens (by omega)
  exact ⟨by decide +kernel, output, houtput, hcode, hbreak⟩

end QueryScribe
