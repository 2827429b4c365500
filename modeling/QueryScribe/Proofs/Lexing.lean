import Mathlib.Data.List.Nodup
import Mathlib.Data.Option.Basic
import QueryScribe.Proofs.Lexeme.Basic
import QueryScribe.Syntax.Layout

/-!
# Tokens of a text

The text of a number or a string is what the scanner of its kind takes from the source, and that of
a word or a sign is its spelling (`Token.Lexed`). This holds of every token that is found in a text
(`lexed_of_scan`), and layout adds only tokens of kinds that have neither (`lexed_of_mem_step`).
-/

namespace QueryScribe

open List

/-- A token as it is found in a text. -/
structure Token.Lexed (t : Token) : Prop where
  /-- If the kind of the token has a scanner, its text is what the scanner takes somewhere. -/
  scanned : ∀ length?, (t.kind, length?) ∈ Lexer.classes →
    ∃ cs n, length? cs = some n ∧ t.text = String.ofList (cs.take n)
  /-- If the kind of the token has one spelling, this is its text. -/
  spelled : ∀ text, (t.kind, text) ∈ Terminal.spelled → t.text = text

theorem Token.lexed_of_notMem {kind : Terminal} (h : kind ∉ Lexer.classes.map (·.1))
    (h' : kind ∉ Terminal.spelled.map (·.1)) (text : String) (span : Span) :
    Lexed ⟨kind, text, span⟩ :=
  ⟨fun _ hmem => absurd (mem_map_of_mem hmem) h,
    fun _ hmem => absurd (mem_map_of_mem hmem) h'⟩

theorem Terminal.eq_of_mem_spelled {kind : Terminal} {text text' : String}
    (h : (kind, text) ∈ spelled) (h' : (kind, text') ∈ spelled) : text = text' := by
  have hnodup : (spelled.map (·.1)).Nodup := by decide
  exact congrArg Prod.snd (inj_on_of_nodup_map hnodup h h' rfl)

namespace Lexer

variable {kind : Terminal}

theorem eq_of_mem_classes {length? length?' : List Char → Option Nat} (h : (kind, length?) ∈ classes)
    (h' : (kind, length?') ∈ classes) : length? = length?' := by
  have hnodup : (classes.map (·.1)).Nodup := by decide
  have heq := inj_on_of_nodup_map hnodup h h' rfl
  exact congrArg Prod.snd heq

theorem notMem_classes_of_mem_spelled :
    ∀ e ∈ Terminal.spelled, e.1 ∉ classes.map (·.1) := by decide

theorem lexed_of_mem_spelled {text : String} (h : (kind, text) ∈ Terminal.spelled) (span : Span) :
    Token.Lexed ⟨kind, text, span⟩ :=
  ⟨fun _ hmem => absurd (mem_map_of_mem hmem) (notMem_classes_of_mem_spelled _ h),
    fun _ hmem => Terminal.eq_of_mem_spelled h hmem⟩

theorem lexed_of_word (accepts : Terminal → Bool) (word : String) (span : Span) :
    Token.Lexed ⟨wordKind accepts word, word, span⟩ := by
  unfold wordKind Terminal.ofWord?
  cases hfind : Terminal.spelled.find? fun e => e.2 == word && accepts e.1 with
  | none => exact Token.lexed_of_notMem (by decide) (by decide) _ _
  | some e =>
    have hfound := find?_some hfind
    have htext : e.2 = word := beq_iff_eq.1 (Bool.and_eq_true_iff.1 hfound).1
    exact lexed_of_mem_spelled (htext ▸ mem_of_find?_eq_some hfind) span

theorem lexed_of_scan {accepts : Terminal → Bool} {cs : List Char} {n : Nat}
    (h : scan accepts cs = some ⟨some kind, n⟩) (span : Span) :
    Token.Lexed ⟨kind, String.ofList (cs.take n), span⟩ := by
  cases found_of_scan h with
  | ofClass hmem hn =>
    refine ⟨fun length?' hmem' => ⟨cs, n, eq_of_mem_classes hmem hmem' ▸ hn, rfl⟩,
      fun text htext => ?_⟩
    exact absurd (mem_map_of_mem hmem) (notMem_classes_of_mem_spelled _ htext)
  | word _ => exact lexed_of_word accepts _ span
  | assignment _ => exact Token.lexed_of_notMem (by decide) (by decide) _ _
  | @spelled _ text hmem hfront =>
    have htake : cs.take text.length = text.toList := by
      rw [← String.length_toList]
      exact (prefix_iff_eq_take.1 hfront).symm
    rw [htake, String.ofList_toList]
    exact lexed_of_mem_spelled hmem span

end Lexer

namespace Layout

theorem lexed_of_mem_step {l : Layout} {t s : Token} (ht : t.Lexed) (h : s ∈ (l.step t).1) :
    s.Lexed := by
  unfold step at h
  split at h
  · split at h
    · cases h
    dsimp only at h
    split at h
    · rcases mem_cons.1 h with rfl | h
      · exact ht
      · rw [mem_singleton.1 h]
        exact Token.lexed_of_notMem (by decide) (by decide) _ _
    · rcases mem_cons.1 h with rfl | h
      · exact ht
      · obtain ⟨_, -, rfl⟩ := mem_map.1 h
        exact Token.lexed_of_notMem (by decide) (by decide) _ _
  all_goals exact mem_singleton.1 h ▸ ht

theorem lexed_of_mem_finish {l : Layout} {last : Span} {s : Token} (h : s ∈ l.finish last) :
    s.Lexed := by
  obtain ⟨_, -, rfl⟩ := mem_map.1 h
  exact Token.lexed_of_notMem (by decide) (by decide) _ _

end Layout

end QueryScribe
