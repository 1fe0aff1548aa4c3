import FrontEnd.Proofs.Scanner.Placed
import FrontEnd.Proofs.Lexical.Nesting

/-! # Comments are scanned to their end

A scanner moves over the characters of comments as the readers of comments take them, and sees
their faults where they are. -/

namespace FrontEnd.Scanner

open String (utf8EncodeChar)
open LexicalGrammar

variable {config : LayoutConfig} {before after : List UInt8} {l : Layout}

/-! ## Characters -/

theorem tab_placed :
    (placed before (0x09 :: after) l).tab config = scanned config before [0x09] after l := by
  have hacross : l.across config [0x09] = l.tab config := by
    rw [Layout.across_cons (by simp), if_neg (by decide), if_pos rfl]
    cases l.tab config <;> rfl
  simp [Scanner.tab, advance_one, scanned, lay_placed, hacross]

theorem lineBreak_wide : (placed before (0x0D :: 0x0A :: after) l).lineBreak config =
    scanned config before [0x0D, 0x0A] after l := by
  have hacross : l.across config [0x0D, 0x0A] = l.wideLineBreak config := by
    rw [Layout.across_wide]
    cases l.wideLineBreak config <;> rfl
  rw [lineBreak, look_placed (Nat.zero_le 3), scanned, lay_placed, hacross, Layout.wideLineBreak]
  simp only [List.getD_cons_zero, ok_bind, advance_one, lay_placed, if_pos, skipLineFeed]
  cases l.countInFile config with
  | error e => rfl
  | ok counted =>
      simp only [ok_bind, look_placed (Nat.zero_le 3), List.getD_cons_zero, if_pos, advance_one,
        lay_placed, Layout.lineBreak]
      cases counted.countInFile config with
      | error e => rfl
      | ok counted => simp [lay_placed]

theorem lineBreak_placed {byte : UInt8} (hbyte : byte = 0x0A ∨ byte = 0x0D)
    (hnarrow : ¬ (byte = 0x0D ∧ after.head? = some 0x0A)) :
    (placed before (byte :: after) l).lineBreak config = scanned config before [byte] after l := by
  have hacross : l.across config [byte] = l.lineBreak config := by
    rw [Layout.across_cons (by simp), if_pos hbyte]
    cases l.lineBreak config <;> rfl
  rw [← getD_eq_mark_iff (by decide)] at hnarrow
  rw [lineBreak, look_placed (Nat.zero_le 3), scanned, lay_placed, hacross, Layout.lineBreak]
  simp only [List.getD_cons_zero, ok_bind, advance_one, lay_placed, skipLineFeed]
  cases l.countInFile config with
  | error e => rfl
  | ok counted =>
      simp only [ok_bind, look_placed (Nat.zero_le 3)]
      by_cases hreturn : byte = 0x0D
      · rw [if_pos hreturn, if_neg fun hfeed => hnarrow ⟨hreturn, hfeed⟩]
        rfl
      · rw [if_neg hreturn]
        rfl

/-- An ASCII character that is no line end of two is moved over. -/
theorem commentCharacter_ascii {byte : UInt8} (hascii : byte.toNat < 128) (hzero : byte ≠ 0)
    (hnarrow : ¬ (byte = 0x0D ∧ after.head? = some 0x0A)) :
    (placed before (byte :: after) l).commentCharacter config =
      scanned config before [byte] after l := by
  rw [commentCharacter, look_placed (Nat.zero_le 3), List.getD_cons_zero, ok_bind]
  split_ifs with htab hend hsmall
  · rw [htab, tab_placed]
  · exact lineBreak_placed hend hnarrow
  · rw [not_or] at hend
    refine bump_placed ⟨hend.1, hend.2, htab, ?_⟩
    rw [Bool.eq_false_iff, ne_eq, Utf8.isContinuation_iff]
    omega
  · exact absurd (UInt8.lt_iff_toNat_lt.mpr hascii) hsmall

theorem ne_ascii_of_ge {lead mark : UInt8} (hwide : 128 ≤ lead.toNat) (hmark : mark.toNat < 128) :
    lead ≠ mark := by
  rintro rfl
  omega

/-- A byte that is no ASCII character is decoded with those behind it. -/
theorem commentCharacter_of_ge {lead : UInt8} (hwide : 128 ≤ lead.toNat) :
    (placed before (lead :: after) l).commentCharacter config =
      (placed before (lead :: after) l).decode >>= fun decoded =>
        (placed before (lead :: after) l).advance decoded.2 >>= fun s =>
          s.lay (·.visible config 1) := by
  have hlarge : ¬ lead < 0x80 := fun hsmall =>
    absurd (UInt8.lt_iff_toNat_lt.mp hsmall) (not_lt.mpr hwide)
  rw [commentCharacter, look_placed (Nat.zero_le 3), List.getD_cons_zero, ok_bind,
    if_neg (ne_ascii_of_ge hwide (by decide)),
    if_neg (not_or.mpr ⟨ne_ascii_of_ge hwide (by decide), ne_ascii_of_ge hwide (by decide)⟩),
    if_neg (ne_ascii_of_ge hwide (by decide)), if_neg hlarge]

/-- A character of several bytes takes one column. -/
theorem across_wide_character {char : Char} {lead : UInt8} {following : List UInt8}
    (hencode : utf8EncodeChar char = lead :: following) (hwide : 128 ≤ lead.toNat) :
    l.across config (utf8EncodeChar char) = l.visible config 1 := by
  have hstep : l.step config (.ofChar char) = _ := Layout.step_ofChar hencode l
  have htext : Move.ofText [char] = [Move.ofChar char] := by simp [Move.ofText]
  rw [if_neg (not_or.mpr ⟨ne_ascii_of_ge hwide (by decide), ne_ascii_of_ge hwide (by decide)⟩),
    if_neg (ne_ascii_of_ge hwide (by decide)),
    if_neg (by simp [(Utf8.continues_of_encode hencode).1])] at hstep
  rw [← encode_singleton, Layout.across_encode, htext, Layout.stepAll_cons, hstep]
  cases l.visible config 1 <;> rfl

/-- A character that is no line end of two is moved over. -/
theorem commentCharacter_placed {char : Char} (hzero : char ≠ '\x00')
    (hnarrow : ¬ (char = '\r' ∧ after.head? = some 0x0A)) :
    (placed before (utf8EncodeChar char ++ after) l).commentCharacter config =
      scanned config before (utf8EncodeChar char) after l := by
  rcases Utf8.encode_cases char with ⟨hascii, hencode⟩ | ⟨lead, following, hencode, hspells⟩
  · have hsize : (UInt8.ofNat char.toNat).toNat = char.toNat := by
      rw [UInt8.toNat_ofNat', Nat.mod_eq_of_lt (by omega)]
    have hmark : ∀ mark : Char, UInt8.ofNat char.toNat = UInt8.ofNat mark.toNat →
        mark.toNat < 128 → char = mark := fun mark h hmark => by
      rw [← UInt8.toNat_inj, hsize, UInt8.toNat_ofNat', Nat.mod_eq_of_lt (by omega)] at h
      exact Char.toNat_inj.mp h
    rw [hencode]
    refine commentCharacter_ascii (hsize.trans_lt hascii) (fun h => ?_) fun h => ?_
    · exact hzero (hmark '\x00' h (by decide))
    · exact hnarrow ⟨hmark '\r' h.1 (by decide), h.2⟩
  · have hdecode := Utf8.decode_encode char after
    have hcharacter : (placed before (lead :: (following ++ after)) l).commentCharacter config =
        _ := commentCharacter_of_ge hspells.wide
    rw [← List.cons_append, ← hencode] at hcharacter
    rw [hcharacter, decode_placed, hdecode]
    simp only [ok_bind, advance_placed, scanned, lay_placed,
      across_wide_character hencode hspells.wide]

theorem commentCharacter_wide : (placed before (0x0D :: 0x0A :: after) l).commentCharacter config =
    scanned config before [0x0D, 0x0A] after l := by
  rw [← lineBreak_wide, commentCharacter, look_placed (Nat.zero_le 3)]
  rfl

/-- No character of a comment starts with these bytes. -/
theorem commentCharacter_of_error {byte : UInt8} {kind : LexicalFault}
    (h : Comment.characterWidth (byte :: after) = .error kind) :
    (placed before (byte :: after) l).commentCharacter config = .error (.error ⟨kind, l.pos⟩) := by
  rcases Comment.characterWidth_eq_error h with ⟨rfl, hnone⟩ | ⟨rfl, hzero⟩
  · have hdecode := Utf8.decode_eq_none_iff.mpr hnone
    have hwide : ¬ byte.toNat < 128 := fun hsmall => by
      rw [Utf8.decode_ascii hsmall] at hdecode
      cases hdecode
    rw [commentCharacter_of_ge (not_lt.mp hwide), decode_placed, hdecode]
    rfl
  · obtain ⟨rest, hrest⟩ := hzero
    obtain ⟨rfl, -⟩ := List.cons.inj hrest
    rw [commentCharacter, look_placed (Nat.zero_le 3)]
    rfl

/-- In front of bytes that are not at the end of a source, a character is moved over or is at
fault. -/
theorem commentCharacter_cases (config : LayoutConfig) (before : List UInt8) (l : Layout)
    {bytes : List UInt8} (h : bytes ≠ []) :
    (∃ kind, (placed before bytes l).commentCharacter config = .error (.error ⟨kind, l.pos⟩)) ∨
    ∃ text after, bytes = text ++ after ∧ text ≠ [] ∧
      (placed before bytes l).commentCharacter config = scanned config before text after l := by
  obtain ⟨byte, rest, rfl⟩ := List.exists_cons_of_ne_nil h
  cases hwidth : Comment.characterWidth (byte :: rest) with
  | error kind => exact .inl ⟨kind, commentCharacter_of_error hwidth⟩
  | ok n =>
      obtain ⟨char, after, hbytes, hzero, -⟩ := Comment.characterWidth_eq_ok_iff.mp hwidth
      refine .inr ?_
      rw [hbytes]
      by_cases hwide : char = '\r' ∧ after.head? = some 0x0A
      · obtain ⟨rfl, hhead⟩ := hwide
        obtain ⟨tail, rfl⟩ := List.head?_eq_some_iff.mp hhead
        exact ⟨[0x0D, 0x0A], tail, rfl, List.cons_ne_nil _ _, commentCharacter_wide⟩
      · exact ⟨_, after, rfl, Comment.encodeChar_ne_nil char,
          commentCharacter_placed hzero hwide⟩

theorem unsplit_character {char : Char} {more : List UInt8}
    (hnarrow : ¬ (char = '\r' ∧ more.head? = some 0x0A)) :
    ¬ ((utf8EncodeChar char).getLast? = some 0x0D ∧ more.head? = some 0x0A) := fun hsplit =>
  hnarrow ⟨(mem_encodeChar_iff (by decide)).mp (List.mem_of_getLast? hsplit.1), hsplit.2⟩

/-! ## Line comments -/

/-- The characters before the end of a line are moved over, and the scanner stays before it. -/
theorem loop_lineComment {text : List Char}
    (htext : ∀ char ∈ text, char ≠ '\x00' ∧ char ≠ '\n' ∧ char ≠ '\r') {stop : Nat}
    (hstop : before.length + (encode text).length ≤ stop) :
    loop (lineCommentRound config stop) (placed before (encode text ++ after) l) () =
      scanned config before (encode text) after l >>= fun t =>
        loop (lineCommentRound config stop) t () := by
  induction text generalizing before l with
  | nil => rw [encode_nil, scanned_nil, List.nil_append, ok_bind]
  | cons char text ih =>
      obtain ⟨⟨hzero, hfeed, hreturn⟩, hrest⟩ := List.forall_mem_cons.mp htext
      have hpos := List.length_pos_iff.mpr (Comment.encodeChar_ne_nil char)
      rw [Comment.encode_cons, List.length_append] at hstop
      rw [Comment.encode_cons, List.append_assoc, loop_of_scanned (Comment.encodeChar_ne_nil char)]
      · refine bind_scanned (unsplit_character fun h => hreturn h.1) fun moved => ih hrest ?_
        rw [List.length_append]
        omega
      · rw [lineCommentRound, pos_placed, if_pos (by omega),
          commentCharacter_placed hzero fun h => hreturn h.1]
        refine bind_scanned_congr fun moved => if_neg ?_
        rw [pos_placed, List.length_append]
        omega

theorem takeWhile_line {text : List Char}
    (htext : ∀ char ∈ text, char ≠ '\x00' ∧ char ≠ '\n' ∧ char ≠ '\r') :
    (encode text ++ after).takeWhile (fun byte => byte != 0x0A && byte != 0x0D) =
      encode text ++ after.takeWhile (fun byte => byte != 0x0A && byte != 0x0D) := by
  refine List.takeWhile_append_of_pos fun byte hbyte => ?_
  rw [Bool.and_eq_true, bne_iff_ne, bne_iff_ne]
  constructor
  · rintro rfl
    exact (htext _ ((mem_encode_iff (by decide)).mp hbyte)).2.1 rfl
  · rintro rfl
    exact (htext _ ((mem_encode_iff (by decide)).mp hbyte)).2.2 rfl

theorem takeWhile_of_lineEnds (h : LineEnds after) :
    after.takeWhile (fun byte => byte != 0x0A && byte != 0x0D) = [] := by
  cases after with
  | nil => rfl
  | cons byte rest =>
      refine List.takeWhile_cons_of_neg ?_
      rcases h byte rfl with rfl | rfl <;> decide

theorem lineRest_eq {text : List Char}
    (htext : ∀ char ∈ text, char ≠ '\x00' ∧ char ≠ '\n' ∧ char ≠ '\r') :
    (placed before (encode text ++ after) l).lineRest config =
      scanned config before (encode text) after l >>= fun t =>
        (loop (lineCommentRound config (t.reader.pos +
          (after.takeWhile fun byte => byte != 0x0A && byte != 0x0D).length)) t ()).map (·.1) := by
  obtain ⟨stop, hstop⟩ : ∃ stop, stop = before.length + (encode text ++
      after.takeWhile fun byte => byte != 0x0A && byte != 0x0D).length := ⟨_, rfl⟩
  have hinside : before.length + (encode text).length ≤ stop := by
    rw [hstop, List.length_append]
    omega
  rw [lineRest, rest_placed, ok_bind, takeWhile_line htext, pos_placed]
  dsimp only
  rw [← hstop, loop_lineComment htext hinside]
  obtain ⟨e, -, hscanned⟩ | ⟨moved, -, hscanned⟩ :=
    scanned_cases config before (encode text) after l
  · rw [hscanned]
    rfl
  · rw [hscanned, ok_bind, ok_bind, pos_placed, hstop, List.length_append, List.length_append,
      Nat.add_assoc]

theorem lineRest_placed {text : List Char}
    (htext : ∀ char ∈ text, char ≠ '\x00' ∧ char ≠ '\n' ∧ char ≠ '\r') (hend : LineEnds after) :
    (placed before (encode text ++ after) l).lineRest config =
      scanned config before (encode text) after l := by
  rw [lineRest_eq htext, takeWhile_of_lineEnds hend]
  refine (bind_scanned_congr fun moved => ?_).trans (bind_pure _)
  rw [loop_of_stop (if_neg (Nat.lt_irrefl _))]
  rfl

theorem lineCommentRound_of_error {byte : UInt8} {kind : LexicalFault} {stop : Nat}
    (hwidth : Comment.characterWidth (byte :: after) = .error kind) (hstop : before.length < stop) :
    lineCommentRound config stop (placed before (byte :: after) l) () =
      .error (.error ⟨kind, l.pos⟩) := by
  rw [lineCommentRound, if_pos (by simpa using hstop), commentCharacter_of_error hwidth]
  rfl

theorem lineRest_of_error {text : List Char}
    (htext : ∀ char ∈ text, char ≠ '\x00' ∧ char ≠ '\n' ∧ char ≠ '\r') {byte : UInt8}
    {kind : LexicalFault} (hwidth : Comment.characterWidth (byte :: after) = .error kind) :
    (placed before (encode text ++ byte :: after) l).lineRest config =
      scanned config before (encode text) (byte :: after) l >>= fun t => t.fail kind := by
  have hbyte : byte ≠ 0x0A ∧ byte ≠ 0x0D := by
    constructor
    · rintro rfl
      cases hwidth
    · rintro rfl
      cases hwidth
  rw [lineRest_eq htext]
  refine bind_scanned_congr fun moved => ?_
  rw [loop_of_error (lineCommentRound_of_error hwidth (by simp [hbyte]))]
  rfl

/-! ## Block comments -/

variable {depth : UInt32}

theorem blockCommentRound_nil : blockCommentRound config (placed before [] l) depth =
    .error (.error ⟨.unclosedBlockComment, l.pos⟩) := by
  simp [blockCommentRound, look_placed, fail]

theorem blockCommentRound_opening :
    blockCommentRound config (placed before (opening ++ after) l) depth =
      scanned config before opening after l >>= fun t => .ok (.next t (depth + 1)) := by
  rw [blockCommentRound, look_placed (by decide), look_placed (by decide), ok_bind, ok_bind]
  exact congrArg (· >>= _) (bumps_pair (by decide) (by decide))

theorem blockCommentRound_closing :
    blockCommentRound config (placed before (closing ++ after) l) depth =
      scanned config before closing after l >>= fun t =>
        if depth - 1 = 0 then .ok (.stop t ()) else .ok (.next t (depth - 1)) := by
  rw [blockCommentRound, look_placed (by decide), look_placed (by decide), ok_bind, ok_bind]
  exact congrArg (· >>= _) (bumps_pair (by decide) (by decide))

theorem blockCommentRound_character {bytes : List UInt8} (hne : bytes ≠ [])
    (hopening : ¬ opening <+: bytes) (hclosing : ¬ closing <+: bytes) :
    blockCommentRound config (placed before bytes l) depth =
      (placed before bytes l).commentCharacter config >>= fun t => .ok (.next t depth) := by
  obtain ⟨first, rest, rfl⟩ := List.exists_cons_of_ne_nil hne
  rw [blockCommentRound, look_placed (by decide), look_placed (by decide), ok_bind, ok_bind]
  rw [opening, PieceEnd.mark_prefix_iff, ← getD_eq_mark_iff (by decide)] at hopening
  rw [closing, PieceEnd.mark_prefix_iff, ← getD_eq_mark_iff (by decide)] at hclosing
  refine (if_neg (by simp)).trans ((if_neg hopening).trans ((if_neg hclosing).trans ?_))
  rfl

theorem loop_opening : loop (blockCommentRound config) (placed before (opening ++ after) l) depth =
    scanned config before opening after l >>= fun t =>
      loop (blockCommentRound config) t (depth + 1) :=
  loop_of_scanned (by decide) blockCommentRound_opening

theorem loop_closing (h : depth - 1 ≠ 0) :
    loop (blockCommentRound config) (placed before (closing ++ after) l) depth =
      scanned config before closing after l >>= fun t =>
        loop (blockCommentRound config) t (depth - 1) := by
  refine loop_of_scanned (by decide) (blockCommentRound_closing.trans ?_)
  exact bind_scanned_congr fun moved => if_neg h

theorem map_bind {α β γ : Type} (x : Except Halt α) (f : α → Except Halt β) (g : β → γ) :
    (x >>= f).map g = x >>= fun a => (f a).map g := by
  cases x <;> rfl

/-- The last closing ends the loop. -/
theorem loop_end (h : depth - 1 = 0) :
    (loop (blockCommentRound config) (placed before (closing ++ after) l) depth).map (·.1) =
      scanned config before closing after l := by
  have hround : blockCommentRound config (placed before (closing ++ after) l) depth = _ :=
    blockCommentRound_closing
  obtain ⟨e, -, hscanned⟩ | ⟨moved, -, hscanned⟩ := scanned_cases config before closing after l
  · rw [hscanned] at hround ⊢
    rw [loop_of_error hround]
    rfl
  · rw [hscanned, ok_bind, if_pos h] at hround
    rw [hscanned, loop_of_stop hround]
    rfl

theorem loop_character {bytes : List UInt8} (hne : bytes ≠ [])
    (hopening : ¬ opening <+: bytes ++ after) (hclosing : ¬ closing <+: bytes ++ after)
    (hbytes : (placed before (bytes ++ after) l).commentCharacter config =
      scanned config before bytes after l) :
    loop (blockCommentRound config) (placed before (bytes ++ after) l) depth =
      scanned config before bytes after l >>= fun t => loop (blockCommentRound config) t depth := by
  refine loop_of_scanned hne ((blockCommentRound_character ?_ hopening hclosing).trans ?_)
  · simp [hne]
  · rw [hbytes]

theorem ofNat_add_one (n : Nat) : UInt32.ofNat n + 1 = UInt32.ofNat (n + 1) :=
  (UInt32.ofNat_add n 1).symm

theorem ofNat_sub_one (n : Nat) : UInt32.ofNat (n + 1) - 1 = UInt32.ofNat n := by
  rw [← ofNat_add_one]
  exact UInt32.add_sub_cancel _ _

theorem ofNat_ne_zero {n : Nat} (h : n + 1 < 2 ^ 32) : UInt32.ofNat (n + 1) ≠ 0 := fun hzero => by
  have hsize := congrArg UInt32.toNat hzero
  rw [UInt32.toNat_ofNat_of_lt' h] at hsize
  cases hsize

/-- A comment is read from one depth to another, as long as a word holds the depth. -/
theorem loop_nests {first last : Nat} {text : List Char} (h : Nests after first text last)
    (hafter : after.head? ≠ some 0x0A)
    (hdepth : 2 * (first + 1) + (encode text).length < 2 ^ 33) :
    loop (blockCommentRound config) (placed before (encode text ++ after) l)
        (UInt32.ofNat (first + 1)) =
      scanned config before (encode text) after l >>= fun t =>
        loop (blockCommentRound config) t (UInt32.ofNat (last + 1)) := by
  induction hlength : text.length using Nat.strong_induction_on
    generalizing text first before l with
  | _ n ih =>
      cases h with
      | here => rw [encode_nil, scanned_nil, List.nil_append, ok_bind]
      | @enter _ text _ hrest =>
          have hbytes : (encode ('/' :: '*' :: text)).length = (encode text).length + 2 := rfl
          refine loop_opening.trans (bind_scanned (fun hsplit => absurd hsplit.1 (by decide))
            fun moved => ?_)
          rw [ofNat_add_one]
          refine ih text.length ?_ hrest ?_ rfl
          · simp [← hlength]
          · omega
      | @leave enclosing text _ hrest =>
          have hbytes : (encode ('*' :: '/' :: text)).length = (encode text).length + 2 := rfl
          have hinside : UInt32.ofNat (enclosing + 1 + 1) - 1 ≠ 0 := by
            rw [ofNat_sub_one]
            exact ofNat_ne_zero (by omega)
          refine (loop_closing hinside).trans (bind_scanned
            (fun hsplit => absurd hsplit.1 (by decide)) fun moved => ?_)
          rw [ofNat_sub_one]
          refine ih text.length ?_ hrest ?_ rfl
          · simp [← hlength]
          · omega
      | @character _ text _ char hzero hopening hclosing hrest =>
          have hbytes : (encode (char :: text)).length =
              (utf8EncodeChar char).length + (encode text).length := List.length_append
          rw [Comment.encode_cons, List.append_assoc] at hopening hclosing
          rw [Comment.encode_cons, List.append_assoc]
          by_cases hwide : char = '\r' ∧ (encode text ++ after).head? = some 0x0A
          · -- a line end of two characters is moved over at once
            obtain ⟨rfl, hhead⟩ := hwide
            obtain ⟨tail, rfl⟩ : ∃ tail, text = '\n' :: tail := by
              cases text with
              | nil => exact absurd hhead hafter
              | cons next tail =>
                  rw [List.head?_append_of_ne_nil _ (encode_ne_nil (List.cons_ne_nil _ _)),
                    head?_encode_eq_iff (by decide)] at hhead
                  exact ⟨tail, congrArg (· :: tail) (Option.some.inj hhead)⟩
            have htail : (encode ('\n' :: tail)).length = (encode tail).length + 1 := rfl
            refine (loop_character (List.cons_ne_nil 0x0D [0x0A]) hopening hclosing
              commentCharacter_wide).trans (bind_scanned
                (fun hsplit => absurd hsplit.1 (by decide)) fun moved => ?_)
            refine ih tail.length ?_ hrest.of_lineFeed ?_ rfl
            · simp [← hlength]
            · omega
          · refine (loop_character (Comment.encodeChar_ne_nil char) hopening hclosing
              (commentCharacter_placed hzero hwide)).trans (bind_scanned ?_ fun moved => ?_)
            · exact unsplit_character fun hsplit => hwide ⟨hsplit.1, by
                rw [List.head?_append, hsplit.2]
                rfl⟩
            · refine ih text.length ?_ hrest ?_ rfl
              · simp [← hlength]
              · omega

theorem blockComment_eq : (placed before (opening ++ after) l).blockComment config =
    scanned config before opening after l >>= fun t =>
      (loop (blockCommentRound config) t 1).map (·.1) :=
  congrArg (· >>= _) (bumps_pair (by decide) (by decide))

/-- A block comment is moved over to its end. -/
theorem blockComment_of_inBlock {text : List UInt8} (h : InBlock 0 text)
    (hshort : opening.length + text.length < 2 ^ 33) :
    (placed before (opening ++ text ++ after) l).blockComment config =
      scanned config before (opening ++ text) after l := by
  obtain ⟨inside, rfl, hnests⟩ := h.exists_nests after
  have hdepth : 2 * (0 + 1) + (encode inside).length < 2 ^ 33 := by
    rw [List.length_append] at hshort
    exact lt_of_le_of_lt (by simp [opening]) hshort
  have hclosing : (closing ++ after).head? ≠ some 0x0A := by simp [closing]
  rw [List.append_assoc, blockComment_eq]
  refine (bind_scanned (fun hsplit => absurd hsplit.1 (by decide)) fun moved => ?_).trans
    (bind_pure _)
  rw [List.append_assoc]
  refine (congrArg (Except.map _) (loop_nests hnests hclosing hdepth)).trans ?_
  rw [map_bind]
  refine bind_scanned (fun hsplit => absurd hsplit.2 (by decide)) fun moved => ?_
  exact (loop_end (by decide)).trans (bind_pure _).symm

theorem blockCommentRound_of_error {kind : LexicalFault}
    (hkind : (after = [] ∧ kind = .unclosedBlockComment) ∨
      (after ≠ [] ∧ Comment.characterWidth after = .error kind)) :
    blockCommentRound config (placed before after l) depth = .error (.error ⟨kind, l.pos⟩) := by
  rcases hkind with ⟨rfl, rfl⟩ | ⟨hne, hwidth⟩
  · exact blockCommentRound_nil
  · obtain ⟨byte, rest, rfl⟩ := List.exists_cons_of_ne_nil hne
    have hmark : byte ≠ 0x2F ∧ byte ≠ 0x2A := by
      constructor
      · rintro rfl
        cases hwidth
      · rintro rfl
        cases hwidth
    rw [blockCommentRound_character hne, commentCharacter_of_error hwidth]
    · rfl
    · exact fun hopening => hmark.1 (PieceEnd.mark_prefix_iff.mp hopening).1
    · exact fun hclosing => hmark.2 (PieceEnd.mark_prefix_iff.mp hclosing).1

/-- The fault of a block comment is met behind its characters. -/
theorem blockComment_of_error {text : List Char} (h : StaysInBlock after 0 text)
    {kind : LexicalFault} (hkind : (after = [] ∧ kind = .unclosedBlockComment) ∨
      (after ≠ [] ∧ Comment.characterWidth after = .error kind))
    (hshort : opening.length + (encode text).length < 2 ^ 33) :
    (placed before (opening ++ encode text ++ after) l).blockComment config =
      scanned config before (opening ++ encode text) after l >>= fun t => t.fail kind := by
  obtain ⟨last, hnests⟩ := h.exists_nests
  have hhead : after.head? ≠ some 0x0A := by
    intro hhead
    obtain ⟨rest, rfl⟩ := List.head?_eq_some_iff.mp hhead
    rcases hkind with ⟨hnil, -⟩ | ⟨-, hwidth⟩
    · cases hnil
    · cases hwidth
  rw [List.append_assoc, blockComment_eq]
  refine bind_scanned (fun hsplit => absurd hsplit.1 (by decide)) fun moved => ?_
  refine (congrArg (Except.map _) (loop_nests hnests hhead hshort)).trans ?_
  rw [map_bind]
  refine bind_scanned_congr fun moved => ?_
  rw [loop_of_error (blockCommentRound_of_error hkind)]
  rfl

/-! ## Progress -/

/-- A scan ends with an error of the source, or further on in the source. -/
def Advances (before bytes : List UInt8) (result : Except Halt Scanner) : Prop :=
  (∃ e, result = .error (.error e)) ∨
    ∃ text after l, bytes = text ++ after ∧ text ≠ [] ∧
      result = .ok (placed (before ++ text) after l)

theorem advances_scanned {text : List UInt8} (htext : text ≠ []) :
    Advances before (text ++ after) (scanned config before text after l) := by
  obtain ⟨e, -, hscanned⟩ | ⟨moved, -, hscanned⟩ := scanned_cases config before text after l
  · exact .inl ⟨e, hscanned⟩
  · exact .inr ⟨text, after, moved, rfl, htext, hscanned⟩

theorem Advances.bind {text : List UInt8} {f : Scanner → Except Halt Scanner}
    (h : ∀ moved, Advances (before ++ text) after (f (placed (before ++ text) after moved))) :
    Advances before (text ++ after) (scanned config before text after l >>= f) := by
  obtain ⟨e, -, hscanned⟩ | ⟨moved, -, hscanned⟩ := scanned_cases config before text after l
  · rw [hscanned]
    exact .inl ⟨e, rfl⟩
  · rw [hscanned, ok_bind]
    obtain ⟨e, he⟩ | ⟨more, rest, reached, rfl, hmore, hreached⟩ := h moved
    · exact .inl ⟨e, he⟩
    · refine .inr ⟨text ++ more, rest, reached, (List.append_assoc _ _ _).symm, by simp [hmore], ?_⟩
      rw [hreached, List.append_assoc]

/-- A comment of any depth ends, in its source. -/
theorem loop_blockComment_advances (before bytes : List UInt8) (l : Layout) (depth : UInt32) :
    Advances before bytes
      ((loop (blockCommentRound config) (placed before bytes l) depth).map (·.1)) := by
  induction hlength : bytes.length using Nat.strong_induction_on
    generalizing before bytes l depth with
  | _ n ih =>
      by_cases hopening : opening <+: bytes
      · obtain ⟨after, rfl⟩ := hopening
        rw [loop_opening, map_bind]
        exact Advances.bind fun moved => ih after.length (by simp [← hlength, opening]) _ _ _ _ rfl
      by_cases hclosing : closing <+: bytes
      · obtain ⟨after, rfl⟩ := hclosing
        by_cases hdepth : depth - 1 = 0
        · rw [loop_end hdepth]
          exact advances_scanned (by decide)
        · rw [loop_closing hdepth, map_bind]
          exact Advances.bind fun moved =>
            ih after.length (by simp [← hlength, closing]) _ _ _ _ rfl
      by_cases hne : bytes = []
      · rw [hne, loop_of_error blockCommentRound_nil]
        exact .inl ⟨_, rfl⟩
      obtain ⟨kind, hfault⟩ | ⟨text, after, rfl, htext, hcharacter⟩ :=
        commentCharacter_cases config before l hne
      · have hround : blockCommentRound config (placed before bytes l) depth =
            .error (.error ⟨kind, l.pos⟩) := by
          rw [blockCommentRound_character hne hopening hclosing, hfault]
          rfl
        rw [loop_of_error hround]
        exact .inl ⟨_, rfl⟩
      · rw [loop_character htext hopening hclosing hcharacter, map_bind]
        have hpos := List.length_pos_iff.mpr htext
        exact Advances.bind fun moved => ih after.length
          (by rw [← hlength, List.length_append]; omega) _ _ _ _ rfl

/-! ## Depth -/

/-- The depth changes by one at a mark only, which is of two bytes. -/
theorem depth_of_round {bytes : List UInt8} {t : Scanner} {later : UInt32}
    (h : blockCommentRound config (placed before bytes l) depth = .ok (.next t later)) :
    ∃ text after moved, bytes = text ++ after ∧ t = placed (before ++ text) after moved ∧
      (later = depth ∨ text = opening ∧ later = depth + 1 ∨ depth - 1 ≠ 0 ∧ later = depth - 1) := by
  by_cases hopening : opening <+: bytes
  · obtain ⟨after, rfl⟩ := hopening
    rw [blockCommentRound_opening] at h
    obtain ⟨hlater, moved, hmoved⟩ := placed_of_next h
    exact ⟨opening, after, moved, rfl, hmoved, .inr (.inl ⟨rfl, hlater⟩)⟩
  by_cases hclosing : closing <+: bytes
  · obtain ⟨after, rfl⟩ := hclosing
    rw [blockCommentRound_closing] at h
    by_cases hdepth : depth - 1 = 0
    · simp only [if_pos hdepth] at h
      cases hscanned : scanned config before closing after l <;> rw [hscanned] at h <;> cases h
    · simp only [if_neg hdepth] at h
      obtain ⟨hlater, moved, hmoved⟩ := placed_of_next h
      exact ⟨closing, after, moved, rfl, hmoved, .inr (.inr ⟨hdepth, hlater⟩)⟩
  by_cases hne : bytes = []
  · rw [hne, blockCommentRound_nil] at h
    cases h
  rw [blockCommentRound_character hne hopening hclosing] at h
  obtain ⟨kind, hfault⟩ | ⟨text, after, rfl, -, hcharacter⟩ :=
    commentCharacter_cases config before l hne
  · rw [hfault] at h
    cases h
  · rw [hcharacter] at h
    obtain ⟨hlater, moved, hmoved⟩ := placed_of_next h
    exact ⟨text, after, moved, rfl, hmoved, .inl hlater⟩

/-- A comment is open at any depth that is counted, and the opening of every comment that is open
has been moved over. -/
def CountsDepth (before : List UInt8) (depth : UInt32) : Prop :=
  1 ≤ depth.toNat ∧ 2 * depth.toNat ≤ before.length

theorem CountsDepth.of_round {bytes : List UInt8} (h : CountsDepth before depth)
    (hshort : (before ++ bytes).length < 2 ^ 32) {t : Scanner} {later : UInt32}
    (hround : blockCommentRound config (placed before bytes l) depth = .ok (.next t later)) :
    ∃ text after moved, bytes = text ++ after ∧ t = placed (before ++ text) after moved ∧
      CountsDepth (before ++ text) later := by
  obtain ⟨hpos, hopened⟩ := h
  obtain ⟨text, after, moved, rfl, ht, hdepth⟩ := depth_of_round hround
  refine ⟨text, after, moved, rfl, ht, ?_⟩
  rw [List.length_append] at hshort
  obtain rfl | ⟨rfl, rfl⟩ | ⟨hne, rfl⟩ := hdepth
  · refine ⟨hpos, hopened.trans ?_⟩
    simp
  · have hnext : (depth + 1).toNat = depth.toNat + 1 := by
      rw [UInt32.toNat_add]
      exact Nat.mod_eq_of_lt (by simp; omega)
    refine ⟨by omega, ?_⟩
    rw [hnext, List.length_append, opening]
    simp
    omega
  · have hnext : (depth - 1).toNat = depth.toNat - 1 :=
      UInt32.toNat_sub_of_le _ _ (UInt32.le_iff_toNat_le.mpr hpos)
    have hzero : (depth - 1).toNat ≠ 0 := fun hzero => hne (UInt32.toNat_inj.mp hzero)
    refine ⟨by omega, ?_⟩
    rw [List.length_append]
    omega

/-- In a source whose length fits a word, the depth is never less than one or more than half of
the length. -/
theorem CountsDepth.of_visits {bytes : List UInt8} (h : CountsDepth before depth)
    (hshort : (before ++ bytes).length < 2 ^ 32) {t : Scanner} {later : UInt32}
    (hvisits : Visits (blockCommentRound config) (placed before bytes l) depth t later) :
    1 ≤ later.toNat ∧ 2 * later.toNat ≤ (before ++ bytes).length := by
  generalize hs : placed before bytes l = s at hvisits
  induction hvisits generalizing before bytes l with
  | here s depth =>
      obtain ⟨hpos, hopened⟩ := h
      rw [List.length_append]
      exact ⟨hpos, by omega⟩
  | next hround _ ih =>
      subst hs
      obtain ⟨text, after, moved, rfl, rfl, hnext⟩ := h.of_round hshort hround
      rw [← List.append_assoc] at hshort ⊢
      exact ih hnext hshort rfl

end FrontEnd.Scanner
