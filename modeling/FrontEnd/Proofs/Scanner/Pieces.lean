import FrontEnd.Proofs.Scanner.Comments
import FrontEnd.Proofs.Scanner.Symbols

/-! # Pieces are scanned as they are found

A scanner moves over the piece that a reader finds, or stops with the reader's fault, unless a
limit is met before. Wherever it starts, it stays in the source. -/

namespace FrontEnd.Scanner

open LexicalGrammar

variable {config : LayoutConfig} {before after rest : List UInt8} {l : Layout} {byte : UInt8}

/-- What a scanner makes of what a reader finds. -/
def found (config : LayoutConfig) (before bytes : List UInt8) (l : Layout) :
    Except ReadFault PieceEnd → Except Halt (Scanner × Option Lexeme)
  | .ok piece =>
    scanned config before (bytes.take piece.length) (bytes.drop piece.length) l >>= fun t =>
      .ok (t, piece.lexeme?)
  | .error fault =>
    scanned config before (bytes.take fault.read) (bytes.drop fault.read) l >>= fun t =>
      .error (.error ⟨fault.kind, match fault.anchor with
        | .pieceStart => l.pos
        | .readEnd => t.layout.pos⟩)

theorem found_of_ok (text after : List UInt8) {piece : PieceEnd} (h : piece.length = text.length) :
    found config before (text ++ after) l (.ok piece) =
      scanned config before text after l >>= fun t => .ok (t, piece.lexeme?) := by
  rw [found, h, List.take_left, List.drop_left]

theorem found_of_error (text after : List UInt8) {fault : ReadFault}
    (h : fault.read = text.length) :
    found config before (text ++ after) l (.error fault) =
      scanned config before text after l >>= fun t =>
        .error (.error ⟨fault.kind, match fault.anchor with
          | .pieceStart => l.pos
          | .readEnd => t.layout.pos⟩) := by
  rw [found, h, List.take_left, List.drop_left]

theorem blank_eq (scan : Except Halt Scanner) : blank scan = scan >>= fun t => .ok (t, none) := by
  cases scan <;> rfl

theorem lexeme_bind (scan : Except Halt Scanner) (value : Lexeme) :
    lexeme (scan >>= fun t => .ok (t, value)) = scan >>= fun t => .ok (t, some value) := by
  cases scan <;> rfl

/-! ## Each kind of piece -/

theorem found_blank (h : byte = 0x20 ∨ byte = 0x09 ∨ byte = 0x0A) :
    (placed before (byte :: rest) l).piece config byte =
      found config before (byte :: rest) l (PieceEnd.find byte rest) := by
  have hresult : found config before ([byte] ++ rest) l (.ok (.blank 1)) = _ :=
    found_of_ok [byte] rest rfl
  rw [PieceEnd.find_blank h]
  refine Eq.trans ?_ hresult.symm
  rcases h with rfl | rfl | rfl
  · change blank ((placed before (0x20 :: rest) l).bump config) = _
    rw [blank_eq, bump_placed (by decide)]
    rfl
  · change blank ((placed before (0x09 :: rest) l).tab config) = _
    rw [blank_eq, tab_placed]
    rfl
  · change blank ((placed before (0x0A :: rest) l).lineBreak config) = _
    rw [blank_eq, lineBreak_placed (.inl rfl) (fun hwide => absurd hwide.1 (by decide))]
    rfl

theorem found_carriageReturn :
    (placed before (0x0D :: rest) l).piece config 0x0D =
      found config before (0x0D :: rest) l (PieceEnd.find 0x0D rest) := by
  rw [PieceEnd.find_carriageReturn]
  change blank ((placed before (0x0D :: rest) l).lineBreak config) = _
  rw [blank_eq]
  by_cases hfeed : rest.head? = some 0x0A
  · obtain ⟨tail, rfl⟩ := List.head?_eq_some_iff.mp hfeed
    have hresult : found config before ([0x0D, 0x0A] ++ tail) l (.ok (.blank 2)) = _ :=
      found_of_ok [0x0D, 0x0A] tail rfl
    rw [if_pos hfeed, lineBreak_wide]
    exact hresult.symm
  · have hresult : found config before ([0x0D] ++ rest) l (.ok (.blank 1)) = _ :=
      found_of_ok [0x0D] rest rfl
    rw [if_neg hfeed, lineBreak_placed (.inr rfl) (fun hwide => hfeed hwide.2)]
    exact hresult.symm

/-- The run of word bytes at the start of a source. -/
theorem exists_run (h : isWordByte byte = true) (rest : List UInt8) :
    ∃ word after, word = byte :: rest.takeWhile isWordByte ∧ byte :: rest = word ++ after ∧
      (∀ byte ∈ word, isWordByte byte = true) ∧ ∀ byte ∈ after.head?, isWordByte byte = false := by
  refine ⟨_, rest.dropWhile isWordByte, rfl, ?_, ?_, ?_⟩
  · rw [List.cons_append, List.takeWhile_append_dropWhile]
  · refine List.forall_mem_cons.mpr ⟨h, fun byte hbyte => ?_⟩
    exact List.mem_takeWhile_imp hbyte
  · intro next hnext
    exact Bool.eq_false_iff.mpr fun hword => by
      have hhead := List.head?_dropWhile_not isWordByte rest
      rw [Option.mem_def.mp hnext] at hhead
      simp [hword] at hhead

theorem not_mark_of_isWordByte (h : isWordByte byte = true) {mark : UInt8}
    (hmark : mark = 0x20 ∨ mark = 0x09 ∨ mark = 0x0A ∨ mark = 0x0D ∨ mark = 0x2F) :
    byte ≠ mark := by
  rintro rfl
  rw [not_isWordByte_mark hmark] at h
  cases h

theorem found_word (h : isWordStart byte = true) :
    (placed before (byte :: rest) l).piece config byte =
      found config before (byte :: rest) l (PieceEnd.find byte rest) := by
  have hbyte : isWordByte byte = true := by rw [isWordByte, h, Bool.true_or]
  have hmark : ∀ mark, _ → byte ≠ mark := fun mark => not_mark_of_isWordByte hbyte
  obtain ⟨word, after, hword, hcut, hrun, hafter⟩ := exists_run hbyte rest
  have hdispatch : (placed before (byte :: rest) l).piece config byte =
      lexeme ((placed before (byte :: rest) l).word config) :=
    (if_neg (hmark 0x20 (by simp))).trans ((if_neg (hmark 0x09 (by simp))).trans
      ((if_neg (by simp [hmark])).trans (if_pos h)))
  have hresult : found config before (word ++ after) l
      (.ok ⟨word.length, some (.ofWord (Number.asciiText word))⟩) = _ := found_of_ok word after rfl
  rw [PieceEnd.find_word h, hdispatch, ← hword, hcut, word_placed hrun hafter, lexeme_bind]
  exact hresult.symm

theorem found_number (h : Number.isDigit byte = true) :
    (placed before (byte :: rest) l).piece config byte =
      found config before (byte :: rest) l (PieceEnd.find byte rest) := by
  have hbyte : isWordByte byte = true := by rw [isWordByte, h, Bool.or_true]
  have hmark : ∀ mark, _ → byte ≠ mark := fun mark => not_mark_of_isWordByte hbyte
  obtain ⟨word, after, hword, hcut, hrun, hafter⟩ := exists_run hbyte rest
  have hdispatch : (placed before (byte :: rest) l).piece config byte =
      lexeme ((placed before (byte :: rest) l).number config) :=
    (if_neg (hmark 0x20 (by simp))).trans ((if_neg (hmark 0x09 (by simp))).trans
      ((if_neg (by simp [hmark])).trans
        ((if_neg (by simp [not_isWordStart_of_isDigit h])).trans (if_pos h))))
  rw [PieceEnd.find_number h, hdispatch, ← hword, hcut, number_placed hrun hafter hword h]
  cases hread : Number.read word with
  | ok value =>
      have hresult : found config before (word ++ after) l
          (.ok ⟨word.length, some (.ofInt value)⟩) = _ := found_of_ok word after rfl
      rw [numberResult, lexeme_bind]
      exact hresult.symm
  | error fault =>
      have hanchor := (Number.read_eq_error hread).1
      change lexeme _ = found config before (word ++ after) l (.error fault)
      rw [numberResult, found, hanchor]
      cases scanned config before ((word ++ after).take fault.read) _ l <;> rfl

/-- A slash leads to a comment if one of two bytes follows it. -/
theorem piece_slash (rest : List UInt8) : (placed before (0x2F :: rest) l).piece config 0x2F =
    if rest.getD 0 0 = 0x2F then blank ((placed before (0x2F :: rest) l).lineComment config)
    else if rest.getD 0 0 = 0x2A then blank ((placed before (0x2F :: rest) l).blockComment config)
    else lexeme ((placed before (0x2F :: rest) l).mark config 0x2F) := by
  have hdispatch : (placed before (0x2F :: rest) l).piece config 0x2F =
      (placed before (0x2F :: rest) l).look 1 >>= fun next =>
        if next = 0x2F then blank ((placed before (0x2F :: rest) l).lineComment config)
        else if next = 0x2A then blank ((placed before (0x2F :: rest) l).blockComment config)
        else lexeme ((placed before (0x2F :: rest) l).mark config 0x2F) := rfl
  rw [hdispatch, look_placed (by decide), ok_bind]
  rfl

theorem length_pair_append (first second : UInt8) (text : List UInt8) :
    2 + text.length = ([first, second] ++ text).length := Nat.add_comm _ _

theorem found_lineComment :
    (placed before (0x2F :: 0x2F :: rest) l).piece config 0x2F =
      found config before (0x2F :: 0x2F :: rest) l (PieceEnd.find 0x2F (0x2F :: rest)) := by
  have hbumps : (placed before (lineMark ++ rest) l).lineComment config =
      scanned config before lineMark rest l >>= fun t => t.lineRest config :=
    congrArg (· >>= _) (bumps_pair (by decide) (by decide))
  rw [PieceEnd.find_lineComment, piece_slash]
  refine (if_pos rfl).trans ?_
  rw [blank_eq]
  change (placed before (lineMark ++ rest) l).lineComment config >>= _ =
    found config before (lineMark ++ rest) l _
  rw [hbumps]
  cases hread : Comment.lineEnd 2 rest with
  | ok stop =>
      obtain ⟨text, after, rfl, htext, hend, rfl⟩ := Comment.lineEnd_eq_ok_iff.mp hread
      have hresult : found config before (lineMark ++ encode text ++ after) l
          (.ok (.blank (2 + (encode text).length))) = _ :=
        found_of_ok (lineMark ++ encode text) after (length_pair_append _ _ _)
      rw [List.append_assoc] at hresult
      rw [bind_assoc]
      refine (bind_scanned (fun hsplit => absurd hsplit.1 (by decide)) fun moved => ?_).trans
        hresult.symm
      rw [lineRest_placed htext hend]
      rfl
  | error fault =>
      obtain ⟨text, after, rfl, htext, hafter, hkind, hstop, hanchor⟩ :=
        Comment.lineEnd_eq_error hread
      obtain ⟨byte, tail, rfl⟩ := List.exists_cons_of_ne_nil hafter
      have hresult : found config before (lineMark ++ encode text ++ byte :: tail) l
          (.error fault) = _ :=
        found_of_error (lineMark ++ encode text) (byte :: tail)
          (hstop.trans (length_pair_append _ _ _))
      rw [List.append_assoc, hanchor] at hresult
      rw [bind_assoc]
      refine (bind_scanned (fun hsplit => absurd hsplit.1 (by decide)) fun moved => ?_).trans
        hresult.symm
      rw [lineRest_of_error htext hkind, bind_assoc]
      rfl

theorem found_blockComment (hshort : (opening ++ rest).length < 2 ^ 33) :
    (placed before (0x2F :: 0x2A :: rest) l).piece config 0x2F =
      found config before (0x2F :: 0x2A :: rest) l (PieceEnd.find 0x2F (0x2A :: rest)) := by
  rw [PieceEnd.find_blockComment, piece_slash]
  refine (if_neg (by simp)).trans ((if_pos rfl).trans ?_)
  rw [blank_eq]
  change (placed before (opening ++ rest) l).blockComment config >>= _ =
    found config before (opening ++ rest) l _
  cases hread : Comment.blockEnd 0 2 rest with
  | ok stop =>
      obtain ⟨text, after, rfl, hinside, rfl⟩ := Comment.blockEnd_eq_ok_iff.mp hread
      have hresult : found config before (opening ++ text ++ after) l
          (.ok (.blank (2 + text.length))) = _ :=
        found_of_ok (opening ++ text) after (length_pair_append _ _ _)
      rw [← List.append_assoc] at hshort ⊢
      rw [List.length_append, List.length_append] at hshort
      rw [blockComment_of_inBlock hinside (by omega)]
      exact hresult.symm
  | error fault =>
      obtain ⟨text, after, rfl, hstays, hkind, hstop, hanchor⟩ := Comment.blockEnd_eq_error hread
      have hresult : found config before (opening ++ encode text ++ after) l (.error fault) = _ :=
        found_of_error (opening ++ encode text) after (hstop.trans (length_pair_append _ _ _))
      rw [hanchor] at hresult
      rw [← List.append_assoc] at hshort ⊢
      rw [List.length_append, List.length_append] at hshort
      rw [blockComment_of_error hstays hkind (by omega), bind_assoc]
      exact hresult.symm

theorem found_mark (hword : isWordByte byte = false)
    (hblank : ¬ (byte = 0x20 ∨ byte = 0x09 ∨ byte = 0x0A)) (hreturn : byte ≠ 0x0D)
    (hline : ¬ lineMark <+: byte :: rest) (hblock : ¬ opening <+: byte :: rest) :
    (placed before (byte :: rest) l).piece config byte =
      found config before (byte :: rest) l (PieceEnd.find byte rest) := by
  have hdispatch : (placed before (byte :: rest) l).piece config byte =
      lexeme ((placed before (byte :: rest) l).mark config byte) := by
    obtain ⟨hstart, hdigit⟩ := Bool.or_eq_false_iff.mp hword
    rw [lineMark, PieceEnd.mark_prefix_iff, ← getD_eq_mark_iff (by decide)] at hline
    rw [opening, PieceEnd.mark_prefix_iff, ← getD_eq_mark_iff (by decide)] at hblock
    by_cases hslash : byte = 0x2F
    · subst hslash
      rw [piece_slash, if_neg fun hnext => hline ⟨rfl, hnext⟩,
        if_neg fun hnext => hblock ⟨rfl, hnext⟩]
    · simp only [not_or] at hblank
      rw [piece, if_neg hblank.1, if_neg hblank.2.1, if_neg (by simp [hblank, hreturn]),
        if_neg (by simp [hstart]), if_neg (by simp [hdigit]), if_neg hslash]
  rw [PieceEnd.find_symbol hword hblank hreturn hline hblock, hdispatch]
  cases hlongest : Symbol.longest? (byte :: rest) with
  | some taken =>
      obtain ⟨s, text⟩ := taken
      obtain ⟨after, hcut, hmark⟩ := mark_of_longest? hlongest
      have hresult : found config before (text ++ after) l
          (.ok ⟨text.length, some (.ofSymbol s)⟩) = _ := found_of_ok text after rfl
      rw [← hcut] at hresult
      rw [hmark, lexeme_bind]
      exact hresult.symm
  | none =>
      have hresult : ∀ kind, found config before ([] ++ byte :: rest) l
          (.error ⟨0, kind, .readEnd⟩) = _ := fun kind => found_of_error [] (byte :: rest) rfl
      simp only [List.nil_append, scanned_nil, ok_bind] at hresult
      rw [mark_of_longest?_eq_none hlongest]
      cases Utf8.decode (byte :: rest) with
      | none => exact (hresult _).symm
      | some decoded => exact (hresult _).symm

theorem piece_placed_of_not_comment (hblock : ¬ opening <+: byte :: rest) :
    (placed before (byte :: rest) l).piece config byte =
      found config before (byte :: rest) l (PieceEnd.find byte rest) := by
  by_cases hblank : byte = 0x20 ∨ byte = 0x09 ∨ byte = 0x0A
  · exact found_blank hblank
  by_cases hreturn : byte = 0x0D
  · rw [hreturn]
    exact found_carriageReturn
  by_cases hline : lineMark <+: byte :: rest
  · obtain ⟨rfl, hhead⟩ := PieceEnd.mark_prefix_iff.mp hline
    obtain ⟨tail, rfl⟩ := List.head?_eq_some_iff.mp hhead
    exact found_lineComment
  by_cases hstart : isWordStart byte = true
  · exact found_word hstart
  by_cases hdigit : Number.isDigit byte = true
  · exact found_number hdigit
  · have hword : isWordByte byte = false := by
      rw [isWordByte, Bool.or_eq_false_iff]
      exact ⟨Bool.eq_false_iff.mpr hstart, Bool.eq_false_iff.mpr hdigit⟩
    exact found_mark hword hblank hreturn hline hblock

/-- A scanner scans the piece that a reader finds. The depth of block comments fits a word in every
source of less than eight gibibytes. -/
theorem piece_placed (hshort : (byte :: rest).length < 2 ^ 33) :
    (placed before (byte :: rest) l).piece config byte =
      found config before (byte :: rest) l (PieceEnd.find byte rest) := by
  by_cases hblock : opening <+: byte :: rest
  · obtain ⟨rfl, hhead⟩ := PieceEnd.mark_prefix_iff.mp hblock
    obtain ⟨tail, rfl⟩ := List.head?_eq_some_iff.mp hhead
    exact found_blockComment hshort
  · exact piece_placed_of_not_comment hblock

end FrontEnd.Scanner
