import Mathlib.Data.Bool.AllAny
import Mathlib.Data.List.TakeWhile
import QueryScribe.Proofs.Writable

/-!
# Values that may be missing

The values of dates, identifiers, decimals and options are missing for failures of the source only.
Options are accepted letter by letter, so a text with a character that is no option is not accepted,
whatever quotes are taken from it (`acceptsFlags_eq_false`).
-/

namespace QueryScribe

open List

/-! ## Values of lists -/

variable {α β : Type}

theorem mapM_eq_some_iff {f : α → Option β} {l : List α} {l' : List β} :
    l.mapM f = some l' ↔ Forall₂ (f · = some ·) l l' := by
  induction l generalizing l' with
  | nil => simp [eq_comm]
  | cons a l ih =>
    rw [mapM_cons, forall₂_cons_left_iff]
    cases hb : f a with
    | none => simp
    | some b =>
      cases hbs : l.mapM f with
      | none =>
        have hnone : ∀ bs, ¬ Forall₂ (f · = some ·) l bs := fun bs h => by
          rw [ih.2 h] at hbs
          cases hbs
        simp [hnone]
      | some bs => simp [← ih, hbs, eq_comm]

theorem isSome_of_mapM {f : α → Option β} {l : List α} {l' : List β} (h : l.mapM f = some l') :
    ∀ a ∈ l, (f a).isSome := by
  have hall := mapM_eq_some_iff.1 h
  clear h
  induction hall with
  | nil => exact nofun
  | cons hab _ ih => exact forall_mem_cons.2 ⟨by rw [hab]; rfl, ih⟩

theorem mapM_eq_ok_iff {ε : Type} {f : α → Except ε β} {l : List α} {l' : List β} :
    l.mapM f = .ok l' ↔ Forall₂ (f · = .ok ·) l l' := by
  induction l generalizing l' with
  | nil =>
    rw [mapM_nil, forall₂_nil_left_iff]
    exact ⟨fun h => (Except.ok.inj h).symm, fun h => h ▸ rfl⟩
  | cons a l ih =>
    rw [mapM_cons, forall₂_cons_left_iff]
    cases ha : f a with
    | error e => exact ⟨nofun, fun ⟨_, _, h, _⟩ => nomatch h⟩
    | ok b =>
      cases hl : l.mapM f with
      | error e =>
        refine ⟨nofun, fun ⟨_, bs, _, hbs, _⟩ => ?_⟩
        rw [ih.2 hbs] at hl
        cases hl
      | ok bs =>
        refine ⟨fun h => ⟨b, bs, rfl, ih.1 hl, (Except.ok.inj h).symm⟩, fun ⟨_, bs', h, hbs', heq⟩ => ?_⟩
        rw [ih.2 hbs'] at hl
        cases h
        cases hl
        rw [heq]
        rfl

theorem exists_of_mapM_eq_error {ε : Type} {f : α → Except ε β} {l : List α} {e : ε}
    (h : l.mapM f = .error e) : ∃ a ∈ l, f a = .error e := by
  induction l with
  | nil => cases h
  | cons a l ih =>
    rw [mapM_cons] at h
    cases ha : f a with
    | error e' =>
      rw [ha] at h
      cases h
      exact ⟨a, .head _, ha⟩
    | ok b =>
      rw [ha] at h
      cases hl : l.mapM f with
      | error e' =>
        rw [hl] at h ih
        obtain ⟨c, hc, hce⟩ := ih h
        exact ⟨c, mem_cons_of_mem a hc, hce⟩
      | ok bs =>
        rw [hl] at h
        cases h

/-! ## Numbers with too many digits -/

namespace Number

/-- A number whose integer part has too many digits for a decimal numeral. -/
def IsLong (n : Number) : Prop := ∃ i, n.toInt = .ok i ∧ 10 ^ Numeral.maxDigits ≤ i.natAbs

theorem maxDigits_lt_length_iff {n : Nat} :
    Numeral.maxDigits < (Nat.toDigits 10 n).length ↔ 10 ^ Numeral.maxDigits ≤ n := by
  rw [← not_le, Nat.length_toDigits_le_iff (by decide) (by decide), not_lt]

theorem numeral_of_lt {i : Int} (h : i.natAbs < 10 ^ Numeral.maxDigits) :
    numeral i = .ok (Numeral.decimal i) :=
  if_neg fun hlong => absurd (maxDigits_lt_length_iff.1 hlong) (not_le.2 h)

theorem numeral_of_le {i : Int} (h : 10 ^ Numeral.maxDigits ≤ i.natAbs) :
    numeral i = .error .tooManyDigits :=
  if_pos (maxDigits_lt_length_iff.2 h)

theorem numeral_eq_error {i : Int} {fault : ConversionFault} (h : numeral i = .error fault) :
    fault = .tooManyDigits ∧ 10 ^ Numeral.maxDigits ≤ i.natAbs := by
  rcases Nat.lt_or_ge i.natAbs (10 ^ Numeral.maxDigits) with hlt | hle
  · rw [numeral_of_lt hlt] at h
    cases h
  · rw [numeral_of_le hle] at h
    cases h
    exact ⟨rfl, hle⟩

theorem write_eq_error {n : Number} {fault : ConversionFault} (h : n.write = .error fault) :
    fault = .tooManyDigits ∧ n.IsLong := by
  cases n with
  | int i =>
    obtain ⟨rfl, hle⟩ := numeral_eq_error h
    exact ⟨rfl, i, rfl, hle⟩
  | double d => cases h

end Number

/-! ## Values of literals -/

namespace Literal

variable {cause : Cause} {fault : Fault}

/-- A fault that shows a number is a failure of the source, unless the number has too many digits. -/
theorem showing_cases {n : Number} {shown : String → Cause}
    (hkind : ∀ text, (shown text).kind = .evaluation) :
    (∃ cause, Fault.showing n shown = .ofCause cause ∧ cause.kind = .evaluation) ∨
      Fault.showing n shown = .conversion .tooManyDigits ∧ n.IsLong := by
  unfold Fault.showing
  split
  · exact .inl ⟨_, rfl, hkind _⟩
  · rename_i hwrite
    obtain ⟨rfl, hlong⟩ := Number.write_eq_error hwrite
    exact .inr ⟨rfl, hlong⟩

theorem int64_eq_error {n : Number} (h : int64 n = .error fault) :
    (∃ cause, fault = .ofCause cause ∧ cause.kind = .evaluation) ∨
      fault = .conversion .tooManyDigits ∧ n.IsLong := by
  unfold int64 at h
  split at h
  · cases h
    exact showing_cases fun _ => rfl
  · rename_i i hi
    split at h <;> cases h
    refine (showing_cases fun _ => rfl).imp_right fun ⟨hfault, i', hi', hlong⟩ => ?_
    cases hi'
    exact ⟨hfault, i, hi, hlong⟩

theorem dropBreak_of_notMem {cs : List Char} (h : '\n' ∉ cs) : dropBreak cs = cs := by
  unfold dropBreak
  split
  · rename_i rest hrest
    have hmem : '\n' ∈ cs := by
      rw [← mem_reverse, hrest]
      exact .head _
    exact absurd hmem h
  · rfl

variable {text : String}

theorem int64Text_eq_error (h : int64Text text = .error fault) :
    (∃ cause, fault = .ofCause cause ∧ cause.kind = .evaluation) ∨
      fault = .conversion .tooManyDigits := by
  unfold int64Text at h
  dsimp only at h
  split at h
  · split at h
    · rename_i n _
      cases hint : int64 (.int n) with
      | ok i => rw [hint] at h; cases h
      | error e => rw [hint] at h; cases h; exact (int64_eq_error hint).imp_right And.left
    · cases h
      exact .inr rfl
  · cases h
    exact .inl ⟨_, rfl, rfl⟩

theorem kind_of_objectId (h : objectId text = .error cause) :
    cause.kind = .evaluation := by
  unfold objectId at h
  dsimp only at h
  split at h <;> cases h
  rfl

theorem kind_of_decimal128 (h : decimal128 text = .error cause) :
    cause.kind = .evaluation := by
  unfold decimal128 at h
  split at h <;> cases h
  rfl

theorem kind_of_moment {parts : List Int} (h : moment parts = .error cause) :
    cause.kind = .evaluation := by
  unfold moment at h
  split at h
  · cases hparts : Moment.ofParts? parts with
    | ok m => rw [hparts] at h; cases h
    | error e => rw [hparts] at h; cases h; rfl
  · cases h; rfl

theorem kind_of_date {parts : List Number} (h : date parts = .error cause) :
    cause.kind = .evaluation := by
  unfold date at h
  split at h
  · cases hparts : parts.mapM component with
    | ok components => rw [hparts] at h; exact kind_of_moment h
    | error cause' =>
      rw [hparts] at h
      cases h
      obtain ⟨n, -, hn⟩ := exists_of_mapM_eq_error hparts
      unfold component at hn
      split at hn
      · split at hn <;> cases hn
        rfl
      · cases hn
        rfl
  · cases h; rfl

/-! ## Options of regular expressions -/

variable {flags : String} {table : List (Char × String)} {accepted : List Char}

theorem kind_of_writeFlags {accepted : Option (List Char)}
    (h : writeFlags flags table accepted = .error cause) : cause.kind = .evaluation := by
  unfold writeFlags at h
  cases hmapM : flags.toList.mapM (writeFlag table accepted) with
  | ok texts => rw [hmapM] at h; cases h
  | error e =>
    rw [hmapM] at h
    cases h
    obtain ⟨c, -, hc⟩ := exists_of_mapM_eq_error hmapM
    unfold writeFlag at hc
    split at hc
    · split at hc <;> cases hc
      rfl
    · cases hc

theorem mem_accepted_of_writeFlags (h : (writeFlags flags table (some accepted)).isOk) :
    ∀ c ∈ flags.toList, c ∈ accepted := by
  intro c hc
  unfold writeFlags at h
  cases hmapM : flags.toList.mapM (writeFlag table (some accepted)) with
  | error e => rw [hmapM] at h; cases h
  | ok texts =>
    obtain ⟨i, hi, rfl⟩ := mem_iff_getElem.1 hc
    have hall := mapM_eq_ok_iff.1 hmapM
    have hlength := hall.length_eq
    have hflag := hall.get (i := i) hi (by omega)
    rw [get_eq_getElem, writeFlag] at hflag
    split at hflag
    · rename_i hmem
      exact contains_iff_mem.1 hmem
    · cases hflag

theorem isOk_writeFlags_none (flags : String) (table : List (Char × String)) :
    (writeFlags flags table none).isOk := by
  cases h : writeFlags flags table none with
  | ok text => rfl
  | error cause =>
    unfold writeFlags at h
    cases hmapM : flags.toList.mapM (writeFlag table none) with
    | ok texts => rw [hmapM] at h; cases h
    | error e =>
      obtain ⟨c, -, hc⟩ := exists_of_mapM_eq_error hmapM
      cases hc

theorem isOk_uniqueFlags {flags : List (Option String)} (seen : List String) :
    (uniqueFlags flags seen).isOk ↔ ∀ flag ∈ flags, flag.isSome := by
  induction flags generalizing seen with
  | nil => exact ⟨fun _ => nofun, fun _ => rfl⟩
  | cons flag flags ih =>
    cases flag with
    | none => exact ⟨nofun, fun h => nomatch h none (.head _)⟩
    | some flag =>
      rw [uniqueFlags, ih, forall_mem_cons]
      exact ⟨fun h => ⟨rfl, h⟩, fun h => h.2⟩

theorem isOk_regexFlags {flags : List (Option String)} :
    (regexFlags flags).isOk ↔ ∀ flag ∈ flags, flag.isSome := by
  rw [← isOk_uniqueFlags [], regexFlags]
  cases uniqueFlags flags [] with
  | ok seen => exact Iff.rfl
  | error cause => exact Iff.rfl

theorem kind_of_regexFlags {flags : List (Option String)} (h : regexFlags flags = .error cause) :
    cause.kind = .evaluation := by
  have hunique : ∀ seen, uniqueFlags flags seen = .error cause → cause.kind = .evaluation := by
    intro seen
    clear h
    induction flags generalizing seen with
    | nil => exact nofun
    | cons flag flags ih =>
      cases flag with
      | none => intro h; cases h; rfl
      | some flag => exact ih _
  rw [regexFlags] at h
  cases huniq : uniqueFlags flags [] with
  | ok seen => rw [huniq] at h; cases h
  | error e => rw [huniq] at h; cases h; exact hunique [] huniq

end Literal

namespace StringToken

variable {c : Char} {cs : List Char}

theorem mem_quotes {quote : List Char} (h : quote ∈ quotes) (hc : c ∈ quote) : c = '"' ∨ c = '\'' := by
  have hall : ∀ c ∈ quotes.flatten, c = '"' ∨ c = '\'' := all_iff_forall_prop.1 (by decide)
  exact hall c (mem_flatten_of_mem h hc)

theorem mem_dropOpening (h : c ∈ cs) (hmark : isMark c = false) (hquote : c ≠ '"') (hquote' : c ≠ '\'') :
    c ∈ dropOpening cs := by
  have hrest : c ∈ cs.dropWhile isMark := by
    rw [← takeWhile_append_dropWhile (p := isMark) (l := cs)] at h
    rcases mem_append.1 h with h | h
    · rw [mem_takeWhile_imp h] at hmark
      cases hmark
    · exact h
  unfold dropOpening
  dsimp only
  split
  · exact h
  · split
    · rename_i quote hfind
      have hfront := find?_some hfind
      obtain ⟨rest, hrest'⟩ := isPrefixOf_iff_prefix.1 hfront
      rw [← hrest'] at hrest ⊢
      rw [drop_left]
      rcases mem_append.1 hrest with h | h
      · rcases mem_quotes (mem_of_find?_eq_some hfind) h with h | h
        · exact absurd h hquote
        · exact absurd h hquote'
      · exact h
    · exact h

theorem eq_append_of_dropEnd? {last rest : List Char} (h : dropEnd? last cs = some rest) :
    cs = rest ++ last := by
  unfold dropEnd? at h
  split at h
  · rename_i hsuffix
    cases h
    obtain ⟨front, rfl⟩ := isSuffixOf_iff_suffix.1 hsuffix
    rw [length_append, Nat.add_sub_cancel, take_left]
  · cases h

/-- What is no quote stays when a closing quote is dropped. -/
theorem mem_dropClosing (h : c ∈ cs) (hquote : c ≠ '"') (hquote' : c ≠ '\'') : c ∈ dropClosing cs := by
  have hdrop : ∀ {core rest : List Char}, quotes.findSome? (fun quote => dropEnd? quote core) = some rest →
      c ∈ core → c ∈ rest := by
    intro core rest hfind hc
    obtain ⟨quote, hmem, hend⟩ := exists_of_findSome?_eq_some hfind
    rw [eq_append_of_dropEnd? hend] at hc
    rcases mem_append.1 hc with h | h
    · exact h
    · rcases mem_quotes hmem h with h | h
      · exact absurd h hquote
      · exact absurd h hquote'
  unfold dropClosing
  dsimp only
  split
  · rename_i rest hrest
    cases hend : dropEnd? ['\n'] cs with
    | none =>
      rw [hend] at hrest
      rw [append_nil]
      exact hdrop hrest h
    | some core =>
      rw [hend] at hrest
      rw [eq_append_of_dropEnd? hend] at h
      rcases mem_append.1 h with h | h
      · exact mem_append_left _ (hdrop hrest h)
      · exact mem_append_right _ h
  · exact h

end StringToken

theorem acceptsFlags_eq_false {target : Target} {text : String} {c : Char} (h : c ∈ text.toList)
    (hc : isForeign c) : target.acceptsFlags text = false := by
  simp only [isForeign, Bool.and_eq_true, Bool.not_eq_true', decide_eq_true_eq] at hc
  obtain ⟨⟨⟨hmark, hquote⟩, hquote'⟩, haccepted⟩ := hc
  rw [← Bool.not_eq_true, Target.acceptsFlags]
  intro hok
  have hkept : c ∈ (String.ofList (StringToken.removeQuotes text.toList)).toList := by
    rw [String.toList_ofList, StringToken.removeQuotes]
    exact StringToken.mem_dropClosing (StringToken.mem_dropOpening h hmark hquote hquote') hquote
      hquote'
  have hmem := Literal.mem_accepted_of_writeFlags hok c hkept
  rw [contains_iff_mem.2 hmem] at haccepted
  cases haccepted

end QueryScribe
