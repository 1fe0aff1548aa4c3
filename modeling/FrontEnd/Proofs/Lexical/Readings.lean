import FrontEnd.Proofs.Lexical.Moves
import FrontEnd.Proofs.Lexical.Tokens

/-! # Readings of texts

A source is read by moving over its text. Every lexeme is placed where the moves over the text
before it lead. -/

namespace FrontEnd

open LexicalGrammar

namespace Pieces

/-- No piece is found in what remains of a source. -/
theorem ofSource_remaining (source : List UInt8) :
    ofSource (ofSource source).remaining =
      ⟨[], (ofSource source).remaining, (ofSource source).fault?⟩ := by
  induction source using Pieces.induction with
  | nil => simp
  | fault byte rest found hfind =>
      rw [ofSource_cons_of_error hfind]
      exact ofSource_cons_of_error hfind
  | piece text rest lexeme? hpiece ih =>
      rw [ofSource_append hpiece]
      exact ih

theorem remaining_eq_nil {source : List UInt8} (h : (ofSource source).fault? = none) :
    (ofSource source).remaining = [] := by
  induction source using Pieces.induction with
  | nil => simp
  | fault byte rest found hfind =>
      rw [ofSource_cons_of_error hfind] at h
      cases h
  | piece text rest lexeme? hpiece ih =>
      rw [ofSource_append hpiece] at h ⊢
      exact ih h

end Pieces

/-! ## Pieces are moved over -/

namespace DecomposesBetween

variable {config : LayoutConfig} {after : List UInt8} {before text : List Char}
  {lexemes : List (List Char × Lexeme)}

/-- Pieces are cut from a text, whatever follows it. -/
theorem exists_ofSource (h : DecomposesBetween after before text lexemes) :
    ∃ pieces, Pieces.ofSource (encode text ++ after) = (Pieces.ofSource after).after pieces := by
  induction h using DecomposesBetween.induction with
  | nil before => exact ⟨[], rfl⟩
  | piece piece hpiece hrest ih =>
      obtain ⟨pieces, hpieces⟩ := ih
      rw [encode_append, List.append_assoc, Pieces.ofSource_append hpiece, hpieces,
        Pieces.after_after]
      exact ⟨_, rfl⟩

/-- Pieces are laid out as far as the moves over their text are made. -/
theorem layOut_outcome (h : DecomposesBetween after before text lexemes)
    (hafter : (Pieces.ofSource after).pieces = []) (l : Layout) (done : List PlacedLexeme) :
    (Reading.layOut config l done (Pieces.ofSource (encode text ++ after)).pieces).2 =
      l.stepAll config (Move.ofText text) := by
  induction h using DecomposesBetween.induction generalizing l done with
  | nil before =>
      rw [encode_nil, List.nil_append, hafter]
      rfl
  | @piece before text lexemes lexeme? piece hpiece hrest ih =>
      rw [encode_append, List.append_assoc, Pieces.ofSource_append hpiece,
        Move.ofText_append hpiece.unsplit, Layout.stepAll_append]
      simp only [Pieces.after, List.singleton_append, Reading.layOut, Layout.across_encode]
      cases l.stepAll config (Move.ofText piece) with
      | error e => rfl
      | ok moved =>
          cases lexeme? with
          | none => exact ih moved done
          | some lexeme => exact ih moved _

/-- A piece leads from where the text before it ends to where it ends with the piece. -/
theorem moves_of_piece {piece : List Char} {lexeme? : Option Lexeme}
    (hpiece : IsPiece (encode piece) (encode text ++ after) lexeme?)
    (hbefore : Unsplit before (piece ++ text)) {first l reached : Layout}
    (hl : l = first.nextAll config (Move.ofText before)) (hwithin : l.Within config)
    (hok : l.stepAll config (Move.ofText (piece ++ text)) = .ok reached) :
    ∃ moved, l.stepAll config (Move.ofText piece) = .ok moved ∧
      moved = first.nextAll config (Move.ofText (before ++ piece)) ∧ moved.Within config ∧
      moved.stepAll config (Move.ofText text) = .ok reached := by
  rw [Move.ofText_append hpiece.unsplit, Layout.stepAll_append] at hok
  rw [Move.ofText_append (hbefore.of_append_right hpiece.text_ne_nil), Layout.nextAll_append, ← hl]
  cases hmoved : l.stepAll config (Move.ofText piece) with
  | error e =>
      rw [hmoved] at hok
      cases hok
  | ok moved =>
      rw [hmoved] at hok
      obtain ⟨hnext, hmovedWithin⟩ := hwithin.of_stepAll hmoved
      exact ⟨moved, rfl, hnext, hmovedWithin, hok⟩

/-- Pieces that are laid out to their end have every lexeme where the text before it ends. -/
theorem layOut_lexemes (h : DecomposesBetween after before text lexemes)
    (hafter : (Pieces.ofSource after).pieces = []) (hbefore : Unsplit before text)
    {first l reached : Layout} (hl : l = first.nextAll config (Move.ofText before))
    (hwithin : l.Within config) (hok : l.stepAll config (Move.ofText text) = .ok reached)
    (done : List PlacedLexeme) :
    (Reading.layOut config l done (Pieces.ofSource (encode text ++ after)).pieces).1 =
      done.reverse ++ lexemes.map fun entry =>
        ⟨(first.nextAll config (Move.ofText entry.1)).pos, entry.2⟩ := by
  induction h using DecomposesBetween.induction generalizing l done with
  | nil before =>
      rw [encode_nil, List.nil_append, hafter]
      exact (List.append_nil _).symm
  | @piece before text lexemes lexeme? piece hpiece hrest ih =>
      obtain ⟨moved, hmoved, hfirst, hmovedWithin, hreached⟩ :=
        moves_of_piece hpiece hbefore hl hwithin hok
      have hlexemes := ih (hpiece.unsplit_append before) hfirst hmovedWithin hreached
      rw [encode_append, List.append_assoc, Pieces.ofSource_append hpiece]
      simp only [Pieces.after, List.singleton_append, Reading.layOut, Layout.across_encode, hmoved]
      cases lexeme? with
      | none => exact hlexemes done
      | some lexeme => simp [hlexemes, hl]

end DecomposesBetween

/-! ## Sources -/

namespace Reading

/-- Where the pieces of a source start. A byte-order mark is a character of the file. -/
def first (source : List UInt8) : Layout :=
  ⟨.start, 0, if byteOrderMark.isPrefixOf source then 1 else 0⟩

variable {config : LayoutConfig} {source : List UInt8}

theorem first_within_iff :
    (first source).Within config ↔
      (byteOrderMark.isPrefixOf source = true → 1 ≤ config.limits.maxFileChars) := by
  constructor
  · intro h hmarked
    have hle := h.fileChars_le
    rwa [first, if_pos hmarked] at hle
  · intro h
    refine ⟨le_rfl, le_max_right _ _, Nat.zero_le _, ?_⟩
    rw [first]
    split
    · rename_i hmarked
      exact h hmarked
    · exact Nat.zero_le _

/-- The start of a source that is read. -/
theorem start_eq_of_within (h : (first source).Within config) :
    (if byteOrderMark.isPrefixOf source then Layout.start.countInFile config else .ok .start) =
      .ok (first source) := by
  rw [first_within_iff] at h
  rw [first]
  split
  · rename_i hmarked
    exact if_neg (not_lt.mpr (h hmarked))
  · rfl

theorem outcome_of_not_within (h : ¬ (first source).Within config) :
    (ofSource config source).outcome = .error ⟨.tooManyCharactersInFile, .start⟩ := by
  rw [first_within_iff, Classical.not_imp, not_le] at h
  have hstart : Layout.start.countInFile config = .error ⟨.tooManyCharactersInFile, .start⟩ :=
    if_pos h.2
  simp [ofSource, h.1, hstart]

theorem within_of_outcome {stop : Position} (h : (ofSource config source).outcome = .ok stop) :
    (first source).Within config := by
  by_contra hwithin
  cases h.symm.trans (outcome_of_not_within hwithin)

theorem ofSource_eq_of_within (h : (first source).Within config) :
    ofSource config source =
      let cut := Pieces.ofSource (body source)
      let (lexemes, reached) := layOut config (first source) [] cut.pieces
      ⟨lexemes, reached.bind fun l => finish config l cut.remaining cut.fault?⟩ := by
  simp only [ofSource, start_eq_of_within h]
  rfl

/-- A source that is cut up to some bytes is read by moving over the text before them. -/
theorem outcome_of_decomposesBetween {text : List Char} {lexemes : List (List Char × Lexeme)}
    {after : List UInt8} {fault? : Option ReadFault} (hbody : body source = encode text ++ after)
    (hafter : Pieces.ofSource after = ⟨[], after, fault?⟩)
    (h : DecomposesBetween after [] text lexemes) (hwithin : (first source).Within config) :
    (ofSource config source).outcome =
        ((first source).stepAll config (Move.ofText text)).bind
          (fun l => finish config l after fault?) ∧
      ∀ reached, (first source).stepAll config (Move.ofText text) = .ok reached →
        (ofSource config source).lexemes = lexemes.map fun entry =>
          ⟨((first source).nextAll config (Move.ofText entry.1)).pos, entry.2⟩ := by
  have hnone : (Pieces.ofSource after).pieces = [] := congrArg Pieces.pieces hafter
  obtain ⟨pieces, hpieces⟩ := h.exists_ofSource
  have houtcome : (layOut config (first source) [] _).2 = _ := h.layOut_outcome hnone _ []
  rw [ofSource_eq_of_within hwithin, hbody, ← houtcome]
  refine ⟨by rw [hpieces, hafter]; rfl, fun reached hok => ?_⟩
  rw [houtcome] at hok
  exact h.layOut_lexemes hnone (.nil_left text) rfl hwithin hok []

/-- A source is read by moving over the text up to a fault or to its end. -/
theorem exists_text (source : List UInt8) : ∃ text lexemes,
    body source = encode text ++ (Pieces.ofSource (body source)).remaining ∧
    DecomposesBetween (Pieces.ofSource (body source)).remaining [] text lexemes ∧
    ∀ config, (first source).Within config →
      (ofSource config source).outcome =
        ((first source).stepAll config (Move.ofText text)).bind (fun l =>
          finish config l (Pieces.ofSource (body source)).remaining
            (Pieces.ofSource (body source)).fault?) ∧
      ∀ reached, (first source).stepAll config (Move.ofText text) = .ok reached →
        (ofSource config source).lexemes = lexemes.map fun entry =>
          ⟨((first source).nextAll config (Move.ofText entry.1)).pos, entry.2⟩ := by
  obtain ⟨text, lexemes, hbody, hdecomposes⟩ :=
    Pieces.exists_decomposesBetween [] (body source)
  refine ⟨text, lexemes, hbody, hdecomposes, fun config hwithin => ?_⟩
  exact outcome_of_decomposesBetween hbody (Pieces.ofSource_remaining _) hdecomposes hwithin

theorem finish_eq_ok_iff {l : Layout} {remaining : List UInt8} {fault? : Option ReadFault}
    {stop : Position} :
    finish config l remaining fault? = .ok stop ↔ fault? = none ∧ stop = l.pos := by
  cases fault? with
  | none => simp [finish, eq_comm]
  | some fault =>
      rw [finish]
      cases l.across config (remaining.take fault.read) with
      | error e => simp
      | ok reached => cases fault.anchor <;> simp

/-- A source that is read to its end has no fault, and all moves over its text are made. -/
theorem reached_of_outcome (hwithin : (first source).Within config) {text : List Char}
    (houtcome : (ofSource config source).outcome =
      ((first source).stepAll config (Move.ofText text)).bind fun l =>
        finish config l (Pieces.ofSource (body source)).remaining
          (Pieces.ofSource (body source)).fault?)
    {stop : Position} (h : (ofSource config source).outcome = .ok stop) :
    (first source).stepAll config (Move.ofText text) =
        .ok ((first source).nextAll config (Move.ofText text)) ∧
      stop = ((first source).nextAll config (Move.ofText text)).pos ∧
      (Pieces.ofSource (body source)).fault? = none := by
  rw [h] at houtcome
  cases hreached : (first source).stepAll config (Move.ofText text) with
  | error e =>
      rw [hreached] at houtcome
      cases houtcome
  | ok reached =>
      rw [hreached] at houtcome
      obtain ⟨hfault, rfl⟩ := finish_eq_ok_iff.mp houtcome.symm
      obtain ⟨rfl, -⟩ := hwithin.of_stepAll hreached
      exact ⟨rfl, rfl, hfault⟩

/-- A source that is read to its end decomposes into the lexemes that are read. -/
theorem decomposes_of_outcome {stop : Position} (h : (ofSource config source).outcome = .ok stop) :
    Decomposes (body source)
      ((ofSource config source).lexemes.map fun placed => placed.lexeme) := by
  have hwithin := within_of_outcome h
  obtain ⟨text, lexemes, hbody, hdecomposes, hread⟩ := exists_text source
  obtain ⟨houtcome, hlexemes⟩ := hread config hwithin
  obtain ⟨hreached, -, hfault⟩ := reached_of_outcome hwithin houtcome h
  rw [Pieces.remaining_eq_nil hfault] at hbody hdecomposes
  rw [hlexemes _ hreached, hbody, List.append_nil, List.map_map]
  exact hdecomposes.decomposes

/-- A fault shows once the bytes read before it are moved over. -/
theorem finish_fault {remaining : List UInt8} {fault : ReadFault} {inside : List Char}
    (hread : remaining.take fault.read = encode inside) (l : Layout) :
    finish config l remaining (some fault) =
      (l.stepAll config (Move.ofText inside)).bind fun stop =>
        .error ⟨fault.kind, match fault.anchor with
          | .pieceStart => l.pos
          | .readEnd => stop.pos⟩ := by
  rw [finish, hread, Layout.across_encode]
  cases l.stepAll config (Move.ofText inside) with
  | error e => rfl
  | ok stop => cases fault.anchor <;> rfl

end Reading

end FrontEnd
