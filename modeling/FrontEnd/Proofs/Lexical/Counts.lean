import FrontEnd.Proofs.Lexical.Text
import FrontEnd.Proofs.Lexical.Tokens
import Mathlib.Tactic.SplitIfs

/-! # Lexemes are counted

Every lexeme starts with a character that counts in the file, so a source has no more of them than
its limit on characters. -/

namespace FrontEnd

open LexicalGrammar

/-! ## Lexemes -/

/-- Only identifiers and integer literals have a value, and they always do. -/
structure Lexeme.Fits (lexeme : Lexeme) : Prop where
  kind_ne : lexeme.kind ≠ .endOfFile
  ident : lexeme.kind = .identifier → ∃ text, lexeme.value = .ident text
  int : lexeme.kind = .intLiteral → ∃ value, lexeme.value = .int value
  plain : lexeme.kind ≠ .identifier → lexeme.kind ≠ .intLiteral → lexeme.value = .none

namespace LexicalGrammar.IsLexeme

variable {text after : List UInt8} {lexeme : Lexeme}

theorem fits (h : IsLexeme text after lexeme) : lexeme.Fits := by
  cases h <;> constructor <;> simp

/-- Every byte of a lexeme starts a character. -/
theorem not_isContinuation (h : IsLexeme text after lexeme) {byte : UInt8} (hbyte : byte ∈ text) :
    Utf8.isContinuation byte = false := by
  have hascii := h.toNat_lt hbyte
  rw [Bool.eq_false_iff, ne_eq, Utf8.isContinuation_iff]
  omega

theorem exists_eq_cons (h : IsLexeme text after lexeme) :
    ∃ byte rest, text = byte :: rest ∧ Utf8.isContinuation byte = false := by
  have hpiece : IsPiece text after (some lexeme) := h
  obtain ⟨byte, rest, rfl⟩ := List.exists_cons_of_ne_nil (ne_nil_of_isPiece hpiece)
  exact ⟨byte, rest, rfl, h.not_isContinuation (List.mem_cons_self ..)⟩

end LexicalGrammar.IsLexeme

/-- All lexemes that a source is cut into are lexemes of its text. -/
theorem Pieces.isLexeme_of_mem {source : List UInt8} {piece : Piece} {lexeme : Lexeme}
    (h : piece ∈ (ofSource source).pieces) (hlexeme : piece.lexeme? = some lexeme) :
    ∃ after, IsLexeme piece.text after lexeme := by
  induction source using Pieces.induction with
  | nil => simp at h
  | fault byte rest found hfind => simp [ofSource_cons_of_error hfind] at h
  | piece text rest lexeme? hpiece ih =>
      rw [ofSource_append hpiece] at h
      rcases List.mem_append.mp h with h | h
      · rw [List.mem_singleton.mp h] at hlexeme ⊢
        cases hlexeme
        exact ⟨rest, hpiece⟩
      · exact ih h

/-! ## Counts -/

namespace Layout

variable {config : LayoutConfig} (hcount : config.limits.maxFileChars < countMax)
  {l moved : Layout}

include hcount

/-- What is counted stays within the limit. -/
theorem fileChars_countInFile (h : l.countInFile config = .ok moved) :
    moved.fileChars = l.fileChars + 1 ∧ moved.fileChars ≤ config.limits.maxFileChars := by
  by_cases hlimit : config.limits.maxFileChars < addCount l.fileChars 1
  · rw [countInFile, if_pos hlimit] at h
    cases h
  · rw [countInFile, if_neg hlimit] at h
    cases h
    unfold addCount at hlimit ⊢
    dsimp only
    omega

theorem fileChars_visible {columns : Nat} (h : l.visible config columns = .ok moved) :
    moved.fileChars = l.fileChars + 1 ∧ moved.fileChars ≤ config.limits.maxFileChars := by
  by_cases hlimit : config.limits.maxLineChars < addCount l.lineChars 1
  · rw [visible, countInLine, if_pos hlimit] at h
    cases h
  · rw [visible, countInLine, if_neg hlimit] at h
    cases hcounted : countInFile config { l with lineChars := addCount l.lineChars 1 } with
    | error e =>
        rw [hcounted] at h
        cases h
    | ok counted =>
        have hstep := fileChars_countInFile hcount hcounted
        rw [hcounted] at h
        cases h
        exact hstep

theorem fileChars_lineBreak (h : l.lineBreak config = .ok moved) :
    moved.fileChars = l.fileChars + 1 ∧ moved.fileChars ≤ config.limits.maxFileChars := by
  unfold lineBreak at h
  cases hcounted : l.countInFile config with
  | error e =>
      rw [hcounted] at h
      cases h
  | ok counted =>
      have hstep := fileChars_countInFile hcount hcounted
      simp only [hcounted, nextLine] at h
      split_ifs at h
      cases h
      exact hstep

theorem fileChars_wideLineBreak (h : l.wideLineBreak config = .ok moved) :
    moved.fileChars = l.fileChars + 2 ∧ moved.fileChars ≤ config.limits.maxFileChars := by
  unfold wideLineBreak at h
  cases hcounted : l.countInFile config with
  | error e =>
      rw [hcounted] at h
      cases h
  | ok counted =>
      have hstep := fileChars_countInFile hcount hcounted
      rw [hcounted] at h
      have hbreak := fileChars_lineBreak hcount h
      omega

/-- A text that starts with the start of a character takes one at least. -/
theorem fileChars_across {text : List UInt8} (hbefore : l.fileChars ≤ config.limits.maxFileChars)
    (h : l.across config text = .ok moved) :
    moved.fileChars ≤ config.limits.maxFileChars ∧ l.fileChars ≤ moved.fileChars ∧
      ∀ byte rest, text = byte :: rest → Utf8.isContinuation byte = false →
        l.fileChars < moved.fileChars := by
  fun_induction across config l text with
  | case1 l =>
      cases h
      exact ⟨hbefore, Nat.le_refl _, by simp⟩
  | case2 l rest e hbreak => cases h
  | case3 l rest next hbreak ih =>
      have hstep := fileChars_wideLineBreak hcount hbreak
      obtain ⟨hlimit, hle, -⟩ := ih hstep.2 h
      exact ⟨hlimit, by omega, fun _ _ _ _ => by omega⟩
  | case4 l byte rest hwide move e hmove => cases h
  | case5 l byte rest hwide move next hmove ih =>
      by_cases hcontinues : ¬ (byte = 0x0A ∨ byte = 0x0D) ∧ byte ≠ 0x09 ∧
          Utf8.isContinuation byte = true
      · have hnext : next = l := by
          simpa [move, hcontinues.1, hcontinues.2.1, hcontinues.2.2] using hmove.symm
        subst hnext
        obtain ⟨hlimit, hle, -⟩ := ih hbefore h
        refine ⟨hlimit, hle, ?_⟩
        rintro first rest' ⟨⟩ hstart
        rw [hcontinues.2.2] at hstart
        cases hstart
      · have hstep : next.fileChars = l.fileChars + 1 ∧
            next.fileChars ≤ config.limits.maxFileChars := by
          simp only [move] at hmove
          split_ifs at hmove with hend htab hcontinued
          · exact fileChars_lineBreak hcount hmove
          · exact fileChars_visible hcount hmove
          · exact absurd ⟨hend, htab, hcontinued⟩ hcontinues
          · exact fileChars_visible hcount hmove
        obtain ⟨hlimit, hle, -⟩ := ih hstep.2 h
        exact ⟨hlimit, by omega, fun _ _ _ _ => by omega⟩

end Layout

/-! ## Readings -/

namespace Reading

variable {config : LayoutConfig}

theorem exists_piece_of_mem_layOut (l : Layout) (done : List PlacedLexeme) {pieces : List Piece}
    {placed : PlacedLexeme} (h : placed ∈ (layOut config l done pieces).1) :
    placed ∈ done ∨ ∃ piece ∈ pieces, piece.lexeme? = some placed.lexeme := by
  induction pieces generalizing l done with
  | nil => exact .inl (by simpa [layOut] using h)
  | cons piece pieces ih =>
      rw [layOut] at h
      cases hmoved : l.across config piece.text with
      | error e =>
          rw [hmoved] at h
          exact .inl (by simpa using h)
      | ok moved =>
          rw [hmoved] at h
          cases hlexeme : piece.lexeme? with
          | none =>
              rw [hlexeme] at h
              rcases ih moved done h with hdone | ⟨other, hother, heq⟩
              · exact .inl hdone
              · exact .inr ⟨other, List.mem_cons_of_mem _ hother, heq⟩
          | some lexeme =>
              rw [hlexeme] at h
              rcases ih moved _ h with hdone | ⟨other, hother, heq⟩
              · rcases List.mem_cons.mp hdone with rfl | hdone
                · exact .inr ⟨piece, List.mem_cons_self .., hlexeme⟩
                · exact .inl hdone
              · exact .inr ⟨other, List.mem_cons_of_mem _ hother, heq⟩

/-- All lexemes of a source have the values that their kinds ask for. -/
theorem fits_of_mem_lexemes {source : List UInt8} {placed : PlacedLexeme}
    (h : placed ∈ (ofSource config source).lexemes) : placed.lexeme.Fits := by
  simp only [ofSource] at h
  cases hstart : (if byteOrderMark.isPrefixOf source = true then Layout.start.countInFile config
      else .ok .start) with
  | error e =>
      rw [hstart] at h
      cases h
  | ok l =>
      rw [hstart] at h
      rcases exists_piece_of_mem_layOut l [] h with hdone | ⟨piece, hpiece, hlexeme⟩
      · cases hdone
      · obtain ⟨after, hfound⟩ := Pieces.isLexeme_of_mem hpiece hlexeme
        exact hfound.fits

variable (hcount : config.limits.maxFileChars < countMax)

include hcount

theorem length_layOut_add_le {l : Layout} (hbefore : l.fileChars ≤ config.limits.maxFileChars)
    (done : List PlacedLexeme) {pieces : List Piece}
    (hpieces : ∀ piece ∈ pieces, ∀ lexeme, piece.lexeme? = some lexeme →
      ∃ after, IsLexeme piece.text after lexeme) :
    (layOut config l done pieces).1.length + l.fileChars ≤
      done.length + config.limits.maxFileChars := by
  induction pieces generalizing l done with
  | nil => simpa [layOut] using hbefore
  | cons piece pieces ih =>
      obtain ⟨hpiece, hrest⟩ := List.forall_mem_cons.mp hpieces
      rw [layOut]
      cases hmoved : l.across config piece.text with
      | error e => simpa using hbefore
      | ok moved =>
          obtain ⟨hlimit, hle, hstart⟩ := Layout.fileChars_across hcount hbefore hmoved
          cases hlexeme : piece.lexeme? with
          | none =>
              have hdone := ih hlimit done hrest
              dsimp only
              omega
          | some lexeme =>
              obtain ⟨after, hfound⟩ := hpiece lexeme hlexeme
              obtain ⟨byte, rest, htext, hbyte⟩ := hfound.exists_eq_cons
              have hlt := hstart byte rest htext hbyte
              have hdone := ih hlimit (⟨l.pos, lexeme⟩ :: done) hrest
              rw [List.length_cons] at hdone
              dsimp only
              omega

/-- A source has no more lexemes than characters are allowed in a file. -/
theorem length_lexemes_le_maxFileChars (source : List UInt8) :
    (ofSource config source).lexemes.length ≤ config.limits.maxFileChars := by
  simp only [ofSource]
  cases hstart : (if byteOrderMark.isPrefixOf source = true then Layout.start.countInFile config
      else .ok .start) with
  | error e => exact Nat.zero_le _
  | ok l =>
      have hbefore : l.fileChars ≤ config.limits.maxFileChars := by
        split_ifs at hstart
        · exact (Layout.fileChars_countInFile hcount hstart).2
        · cases hstart
          exact Nat.zero_le _
      have hall := length_layOut_add_le hcount hbefore []
        (fun piece hpiece _ => Pieces.isLexeme_of_mem hpiece :
          ∀ piece ∈ (Pieces.ofSource (body source)).pieces, _)
      rw [List.length_nil, Nat.zero_add] at hall
      exact Nat.le_trans (Nat.le_add_right _ _) hall

end Reading

end FrontEnd
