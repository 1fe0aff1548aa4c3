import FrontEnd.Proofs.Scanner.Pieces
import FrontEnd.Proofs.Lexical.Onward

/-! # The scanner makes no slip

Scanning a source never slips, whatever the source and the limits, and comes to the tokens or the
error of the source. -/

namespace FrontEnd.Scanner

variable {hash : String → UInt32}

open LexicalGrammar

variable {config : LayoutConfig} {before bytes rest : List UInt8} {l : Layout} {byte : UInt8}

/-! ## Pieces -/

theorem piece?_nil : (placed before [] l).piece? config = .ok none := by
  rw [piece?, look_placed (Nat.zero_le 3), ok_bind]
  exact if_pos ⟨rfl, isAtEnd_placed⟩

theorem piece?_cons : (placed before (byte :: rest) l).piece? config =
    ((placed before (byte :: rest) l).piece config byte).map some := by
  rw [piece?, look_placed (Nat.zero_le 3), ok_bind]
  refine (if_neg ?_).trans ?_
  · rw [isAtEnd_placed]
    exact fun hend => Bool.false_ne_true hend.2
  · change (placed before (byte :: rest) l).piece config byte >>= _ = _
    cases (placed before (byte :: rest) l).piece config byte <;> rfl

/-- A fault ends a scan as it ends a reading. -/
theorem exists_error_of_fault (config : LayoutConfig) (before bytes : List UInt8) (l : Layout)
    (fault : ReadFault) :
    ∃ e, Reading.finish config l bytes (some fault) = .error e ∧
      found config before bytes l (.error fault) = .error (.error e) := by
  rw [Reading.finish, found, scanned, lay_placed]
  cases l.across config (bytes.take fault.read) with
  | error e => exact ⟨e, rfl, rfl⟩
  | ok moved =>
      cases fault.anchor with
      | pieceStart => exact ⟨_, rfl, rfl⟩
      | readEnd => exact ⟨_, rfl, rfl⟩

theorem advances_of_lexeme {scan : Except Halt Scanner} (h : Advances before bytes scan)
    (lexeme? : Option Lexeme) :
    Advances before bytes ((scan >>= fun t => .ok (t, lexeme?)).map (·.1)) := by
  cases scan <;> exact h

/-- A piece ends with an error of the source, or further on in the source. -/
theorem piece_advances (config : LayoutConfig) (before : List UInt8) (byte : UInt8)
    (rest : List UInt8) (l : Layout) :
    Advances before (byte :: rest)
      (((placed before (byte :: rest) l).piece config byte).map (·.1)) := by
  by_cases hblock : opening <+: byte :: rest
  · obtain ⟨rfl, hhead⟩ := PieceEnd.mark_prefix_iff.mp hblock
    obtain ⟨tail, rfl⟩ := List.head?_eq_some_iff.mp hhead
    have hcomment : (placed before (0x2F :: 0x2A :: tail) l).blockComment config = _ :=
      blockComment_eq
    have hpiece : (placed before (0x2F :: 0x2A :: tail) l).piece config 0x2F =
        blank ((placed before (0x2F :: 0x2A :: tail) l).blockComment config) := by
      rw [piece_slash]
      exact (if_neg (by simp)).trans (if_pos rfl)
    rw [hpiece, hcomment, blank_eq]
    apply advances_of_lexeme
    exact Advances.bind fun moved => loop_blockComment_advances _ _ _ _
  · rw [piece_placed_of_not_comment hblock]
    cases hfind : PieceEnd.find byte rest with
    | error fault =>
        obtain ⟨e, -, hfound⟩ := exists_error_of_fault config before (byte :: rest) l fault
        rw [hfound]
        exact .inl ⟨e, rfl⟩
    | ok piece =>
        obtain ⟨text, after, hcut, hlength, hpiece⟩ := PieceEnd.exists_isPiece_of_find hfind
        rw [hcut, found_of_ok text after hlength]
        exact advances_of_lexeme (advances_scanned (ne_nil_of_isPiece hpiece)) _

/-! ## Tokens -/

theorem length_push_le (names : Interner hash) (done : List Token) (pos : Position)
    (lexeme? : Option Lexeme) : (push names done pos lexeme?).1.length ≤ done.length + 1 := by
  cases lexeme? with
  | none => exact Nat.le_succ _
  | some lexeme => exact Nat.le_refl _

theorem internOnto_push (names : Interner hash) (done : List Token) (pos : Position)
    (lexeme? : Option Lexeme) (placed : List PlacedLexeme) :
    PlacedLexeme.internOnto names done ((lexeme?.map (PlacedLexeme.mk pos)).toList ++ placed) =
      PlacedLexeme.internOnto (push names done pos lexeme?).2 (push names done pos lexeme?).1
        placed := by
  cases lexeme? <;> rfl

/-- Behind a piece the scanner goes on with its token. -/
theorem tokensOnto_next {s t : Scanner} {lexeme? : Option Lexeme}
    (h : s.piece? config = .ok (some (t, lexeme?))) (hleft : t.left < s.left) (done : List Token)
    (names : Interner hash) :
    s.tokensOnto config done names =
      t.tokensOnto config (push names done s.layout.pos lexeme?).1
        (push names done s.layout.pos lexeme?).2 := by
  rw [tokensOnto, h]
  exact if_pos hleft

theorem tokensOnto_of_error {s : Scanner} {e : LexicalError}
    (h : s.piece? config = .error (.error e)) (done : List Token) (names : Interner hash) :
    s.tokensOnto config done names = .ok (.error e, names) := by
  rw [tokensOnto, h]

/-- From every place in a source the scanner comes to the end without a slip, and makes no more
tokens than there are bytes, and one for the end. -/
theorem exists_tokensOnto (config : LayoutConfig) (before bytes : List UInt8) (l : Layout)
    (done : List Token) (names : Interner hash) :
    ∃ result, (placed before bytes l).tokensOnto config done names = .ok result ∧
      ∀ tokens, result.1 = .ok tokens → tokens.length ≤ done.length + bytes.length + 1 := by
  induction hlength : bytes.length using Nat.strong_induction_on
    generalizing before bytes l done names with
  | _ n ih =>
      cases bytes with
      | nil =>
          rw [tokensOnto, piece?_nil]
          refine ⟨_, rfl, fun tokens htokens => ?_⟩
          cases htokens
          simp [← hlength]
      | cons byte rest =>
          have hstep : (placed before (byte :: rest) l).piece? config = _ := piece?_cons
          have hadvances := piece_advances config before byte rest l
          cases hpiece : (placed before (byte :: rest) l).piece config byte with
          | error halt =>
              rw [hpiece] at hstep hadvances
              obtain ⟨e, he⟩ | ⟨_, _, _, -, -, hreached⟩ := hadvances
              · cases he
                exact ⟨_, tokensOnto_of_error hstep done names,
                  fun tokens htokens => by cases htokens⟩
              · cases hreached
          | ok reached =>
              obtain ⟨t, lexeme?⟩ := reached
              rw [hpiece] at hstep hadvances
              obtain ⟨e, he⟩ | ⟨text, after, moved, hcut, htext, hreached⟩ := hadvances
              · cases he
              cases hreached
              have hpos := List.length_pos_iff.mpr htext
              rw [hcut, List.length_append] at hlength
              have hleft : (placed (before ++ text) after moved).left <
                  (placed before (byte :: rest) l).left := by
                rw [left_placed, left_placed, hcut, List.length_append]
                omega
              obtain ⟨result, hresult, hcount⟩ := ih after.length (by omega) (before ++ text) after
                moved (push names done l.pos lexeme?).1 (push names done l.pos lexeme?).2 rfl
              refine ⟨result, (tokensOnto_next hstep hleft done names).trans hresult,
                fun tokens htokens => ?_⟩
              have hpushed := length_push_le names done l.pos lexeme?
              have := hcount tokens htokens
              omega

/-- From every place in a source the scanner makes the tokens that the source has from there on. -/
theorem tokensOnto_eq (hshort : bytes.length < 2 ^ 33) (done : List Token) (names : Interner hash) :
    (placed before bytes l).tokensOnto config done names =
      let reading := Reading.onward config l bytes
      let (tokens, names) := PlacedLexeme.internOnto names done reading.lexemes
      .ok (reading.outcome.map fun stop => tokens ++ [.endOfFile stop], names) := by
  induction bytes using Pieces.induction generalizing before l done names with
  | nil =>
      rw [tokensOnto, piece?_nil, Reading.onward_nil]
      rfl
  | fault byte rest fault hfind =>
      obtain ⟨e, hfinish, hfound⟩ := exists_error_of_fault config before (byte :: rest) l fault
      have hstep : (placed before (byte :: rest) l).piece? config = .error (.error e) := by
        rw [piece?_cons, piece_placed hshort, hfind, hfound]
        rfl
      rw [tokensOnto_of_error hstep, Reading.onward_of_error l hfind, hfinish]
      rfl
  | piece text rest lexeme? hpiece ih =>
      have hne := ne_nil_of_isPiece hpiece
      have hpos := List.length_pos_iff.mpr hne
      obtain ⟨byte, tail, rfl⟩ := List.exists_cons_of_ne_nil hne
      have hfind := (PieceEnd.find_eq_ok_iff rfl).mpr hpiece
      have hstep : (placed before (byte :: tail ++ rest) l).piece? config =
          (scanned config before (byte :: tail) rest l >>= fun t => .ok (t, lexeme?)).map some := by
        refine piece?_cons.trans (congrArg _ ?_)
        rw [piece_placed hshort, hfind]
        exact found_of_ok (byte :: tail) rest rfl
      rw [List.length_append] at hshort
      rw [Reading.onward_piece l hpiece]
      rw [scanned, lay_placed] at hstep
      cases hacross : l.across config (byte :: tail) with
      | error e =>
          rw [hacross] at hstep
          exact tokensOnto_of_error hstep done names
      | ok moved =>
          rw [hacross] at hstep
          rw [tokensOnto_next hstep (by simp), ih (by omega)]
          simp only [internOnto_push]
          rfl

/-! ## Sources -/

theorem ofSource_placed (source : List UInt8) :
    ofSource ⟨source⟩ = .ok (placed [] source .start) := by
  have hroom := (PaddedSource.mk source).endPadding_le
  rw [← PaddedSource.length_paddedBytes] at hroom
  exact if_neg (not_lt.mpr hroom)

/-- A byte-order mark is moved over as one character of the file. -/
theorem exists_skipMark (config : LayoutConfig) (source : List UInt8) :
    ∃ mark, mark ++ Reading.body source = source ∧
      (placed [] source .start).skipMark config =
        (placed mark (Reading.body source) .start).lay fun l =>
          if Reading.byteOrderMark.isPrefixOf source then l.countInFile config else .ok l := by
  rw [skipMark, rest_placed, ok_bind]
  by_cases hmark : Reading.byteOrderMark.isPrefixOf source = true
  · obtain ⟨body, rfl⟩ := List.isPrefixOf_iff_prefix.mp hmark
    have hbody : Reading.body (Reading.byteOrderMark ++ body) = body := by
      rw [Reading.body, if_pos hmark]
      rfl
    have hadvance : (placed [] (Reading.byteOrderMark ++ body) .start).advance _ = _ :=
      advance_placed Reading.byteOrderMark
    refine ⟨Reading.byteOrderMark, by rw [hbody], ?_⟩
    rw [if_pos hmark, hadvance, hbody]
    simp only [if_pos hmark]
    rfl
  · have hbody : Reading.body source = source := if_neg hmark
    refine ⟨[], by rw [hbody, List.nil_append], ?_⟩
    rw [if_neg hmark, hbody]
    simp only [if_neg hmark]
    rfl

/-- The scanner makes the tokens that a source has. -/
theorem tokens_eq (config : LayoutConfig) {source : List UInt8} (hshort : source.length < 2 ^ 33)
    (names : Interner hash) :
    tokens config ⟨source⟩ names = .ok (tokenize config source names) := by
  have hbody := (Reading.length_body_le source).trans_lt hshort
  obtain ⟨mark, -, hskip⟩ := exists_skipMark config source
  rw [tokens, ofSource_placed, ok_bind, hskip, lay_placed, tokenize_eq,
    Reading.ofSource_eq_onward]
  cases (if Reading.byteOrderMark.isPrefixOf source then Layout.start.countInFile config
    else .ok .start) with
  | error e => rfl
  | ok l => exact tokensOnto_eq hbody [] names

/-- A scanner comes to the end of every source without a slip. -/
theorem exists_tokens (config : LayoutConfig) (source : List UInt8) (names : Interner hash) :
    ∃ result, tokens config ⟨source⟩ names = .ok result ∧
      ∀ tokens, result.1 = .ok tokens → tokens.length ≤ source.length + 1 := by
  have hbody := Reading.length_body_le source
  obtain ⟨mark, -, hskip⟩ := exists_skipMark config source
  rw [tokens, ofSource_placed, ok_bind, hskip, lay_placed]
  cases (if Reading.byteOrderMark.isPrefixOf source then Layout.start.countInFile config
    else .ok .start) with
  | error e => exact ⟨_, rfl, fun tokens htokens => by cases htokens⟩
  | ok l =>
      obtain ⟨result, hresult, hcount⟩ :=
        exists_tokensOnto config mark (Reading.body source) l [] names
      refine ⟨result, hresult, fun tokens htokens => ?_⟩
      have := hcount tokens htokens
      rw [List.length_nil] at this
      omega

/-- The padding of a source starts behind its content, ends a block, and has the size that words
compute. Inside of it the source is scanned to its end or to an error, without a slip, and into no
more tokens than there are bytes, and one for the end. These are the tokens of the source as long
as the depth of its comments fits a word. -/
theorem scans_inside_padding (source : List UInt8) (hsize : source.length ≤ 2 ^ 64 - 1 - 67) :
    (∃ zeros, 4 ≤ zeros ∧
      (PaddedSource.mk source).paddedBytes = source ++ List.replicate zeros 0) ∧
    64 ∣ (PaddedSource.mk source).paddedBytes.length ∧
    (PaddedSource.paddedWord (UInt64.ofNat source.length)).toNat =
      (PaddedSource.mk source).paddedBytes.length ∧
    ∀ (config : LayoutConfig) (names : Interner hash), ∃ result,
      tokens config ⟨source⟩ names = .ok result ∧
      (∀ tokens, result.1 = .ok tokens → tokens.length ≤ source.length + 1) ∧
      (source.length < 2 ^ 33 → result = tokenize config source names) := by
  refine ⟨PaddedSource.exists_paddedBytes _, PaddedSource.blockSize_dvd_length _, ?_, ?_⟩
  · rw [PaddedSource.length_paddedBytes]
    exact PaddedSource.toNat_paddedWord hsize
  · intro config names
    obtain ⟨result, hresult, hcount⟩ := exists_tokens config source names
    refine ⟨result, hresult, hcount, fun hshort => ?_⟩
    exact Except.ok.inj (hresult.symm.trans (tokens_eq config hshort names))

/-- A source of a character of two bytes in a line comment, and a zero byte behind it. -/
theorem scans_inside_padding_lineComment :
    [0x2F, 0x2F, 0xC3, 0xA9, 0x0A, 0].length ≤ 2 ^ 64 - 1 - 67 ∧
      64 ∣ (PaddedSource.mk [0x2F, 0x2F, 0xC3, 0xA9, 0x0A, 0]).paddedBytes.length ∧
      tokens {} ⟨[0x2F, 0x2F, 0xC3, 0xA9, 0x0A, 0]⟩ .noNames =
        .ok (tokenize {} [0x2F, 0x2F, 0xC3, 0xA9, 0x0A, 0] .noNames) := by
  obtain ⟨-, hblocks, -, hscans⟩ :=
    scans_inside_padding [0x2F, 0x2F, 0xC3, 0xA9, 0x0A, 0] (by decide)
  obtain ⟨result, hresult, -, heq⟩ := hscans {} .noNames
  exact ⟨by decide, hblocks, hresult.trans (congrArg _ (heq (by decide)))⟩

end FrontEnd.Scanner
