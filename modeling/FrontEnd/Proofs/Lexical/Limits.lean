import FrontEnd.Proofs.Except
import FrontEnd.Proofs.Lexical.Faults

/-! # Limits only limit

A source within the limits has the tokens that it has without them, and a limit is met with the
first character beyond it. -/

namespace FrontEnd

variable {hash : String → UInt32}

open LexicalGrammar

namespace Move

/-! ## Counts -/

def isBreak : Move → Bool
  | visible | tab => false
  | lineBreak | wideLineBreak => true

/-- The characters of the file that a move is over. -/
def width : Move → Nat
  | wideLineBreak => 2
  | _ => 1

/-- How many characters each line has, without its end and with some before it in the first line. -/
def lineSizes (before : Nat) : List Move → List Nat
  | [] => [before]
  | move :: moves =>
    if move.isBreak then before :: lineSizes 0 moves else lineSizes (before + 1) moves

/-- How many characters the last line has. -/
def lastSize (before : Nat) (moves : List Move) : Nat :=
  moves.foldl (fun size move => if move.isBreak then 0 else size + 1) before

def widths (moves : List Move) : Nat := (moves.map width).sum

theorem widths_cons (move : Move) (moves : List Move) :
    widths (move :: moves) = move.width + widths moves := rfl

theorem length_lineSizes (before : Nat) (moves : List Move) :
    (lineSizes before moves).length = moves.countP isBreak + 1 := by
  induction moves generalizing before with
  | nil => rfl
  | cons move moves ih =>
      rw [lineSizes, List.countP_cons]
      split <;> simp [ih]

theorem lastSize_append (before : Nat) (first second : List Move) :
    lastSize before (first ++ second) = lastSize (lastSize before first) second :=
  List.foldl_append

theorem getLast?_lineSizes (before : Nat) (moves : List Move) :
    (lineSizes before moves).getLast? = some (lastSize before moves) := by
  induction moves generalizing before with
  | nil => rfl
  | cons move moves ih =>
      rw [lineSizes, lastSize, List.foldl_cons]
      split
      · rw [List.getLast?_cons, ih]
        rfl
      · exact ih _

theorem exists_le_of_lineSizes (before : Nat) (moves : List Move) :
    ∃ size ∈ lineSizes before moves, before ≤ size := by
  induction moves generalizing before with
  | nil => exact ⟨before, List.mem_singleton_self _, le_rfl⟩
  | cons move moves ih =>
      rw [lineSizes]
      split
      · exact ⟨before, List.mem_cons_self .., le_rfl⟩
      · obtain ⟨size, hsize, hle⟩ := ih (before + 1)
        exact ⟨size, hsize, by omega⟩

theorem width_ofChar (char : Char) : (ofChar char).width = 1 := by
  unfold ofChar
  split_ifs <;> rfl

theorem widths_ofText (text : List Char) : widths (ofText text) = text.length := by
  unfold widths
  fun_induction ofText text with
  | case1 => rfl
  | case2 text ih =>
      simp only [List.map_cons, List.sum_cons, ih, width, List.length_cons]
      omega
  | case3 char text hwide ih =>
      simp only [List.map_cons, List.sum_cons, ih, width_ofChar, List.length_cons]
      omega

/-! ## Moves of a part of a text -/

theorem ofChar_ne_wideLineBreak (char : Char) : ofChar char ≠ wideLineBreak := by
  unfold ofChar
  split_ifs <;> decide

theorem ofText_singleton (char : Char) : ofText [char] = [ofChar char] := by
  rw [ofText, ofText]
  rintro _ _ ⟨⟩

theorem exists_of_ofText_eq_cons {text : List Char} {move : Move} {moves : List Move}
    (h : ofText text = move :: moves) : ∃ last rest, text = last ++ rest ∧ Unsplit last rest ∧
      ofText last = [move] ∧ ofText rest = moves ∧
      ((∃ char, last = [char]) ∨ last = ['\r', '\n'] ∧ move = .wideLineBreak) := by
  fun_cases ofText text with
  | case1 => cases h
  | case2 text =>
      obtain ⟨rfl, rfl⟩ := List.cons.inj h
      have hunsplit : Unsplit ['\r', '\n'] text := by simp [Unsplit]
      exact ⟨['\r', '\n'], text, rfl, hunsplit, rfl, rfl, .inr ⟨rfl, rfl⟩⟩
  | case3 char text hwide =>
      rw [ofText] at h
      · obtain ⟨rfl, rfl⟩ := List.cons.inj h
        refine ⟨[char], text, rfl, ?_, ofText_singleton char, rfl, .inl ⟨char, rfl⟩⟩
        rintro ⟨hreturn, hfeed⟩
        obtain ⟨tail, rfl⟩ := List.head?_eq_some_iff.mp hfeed
        exact hwide tail (Option.some.inj hreturn) rfl
      · exact hwide

/-- Moves of a text are cut where the text is cut. -/
theorem exists_of_ofText_eq_append {text : List Char} {first second : List Move}
    (h : ofText text = first ++ second) : ∃ before after, text = before ++ after ∧
      Unsplit before after ∧ ofText before = first ∧ ofText after = second := by
  induction first generalizing text with
  | nil => exact ⟨[], text, rfl, .nil_left text, rfl, h⟩
  | cons move first ih =>
      obtain ⟨last, rest, rfl, hunsplit, hlast, hrest, -⟩ := exists_of_ofText_eq_cons h
      obtain ⟨before, after, rfl, hafter, rfl, rfl⟩ := ih hrest
      refine ⟨last ++ before, after, (List.append_assoc ..).symm, ?_, ?_, rfl⟩
      · cases before with
        | nil => rwa [List.append_nil]
        | cons char before => exact hafter.append_left (List.cons_ne_nil char before)
      · have hbefore : Unsplit last before := by
          cases before with
          | nil => exact .nil_right last
          | cons char before => exact hunsplit.of_append_right (List.cons_ne_nil char before)
        rw [ofText_append hbefore, hlast]
        rfl

end Move

/-! ## Layouts within limits -/

/-- Counts can go beyond limits. -/
structure LayoutLimits.Exact (limits : LayoutLimits) : Prop where
  lines : limits.maxLines < countMax
  lineChars : limits.maxLineChars < countMax
  fileChars : limits.maxFileChars < countMax

namespace Layout

/-- A layout has room for moves. -/
structure HasRoom (config : LayoutConfig) (l : Layout) (moves : List Move) : Prop where
  lines : l.pos.line + moves.countP Move.isBreak ≤ max config.limits.maxLines 1
  sizes : ∀ size ∈ Move.lineSizes l.lineChars moves, size ≤ config.limits.maxLineChars
  widths : l.fileChars + Move.widths moves ≤ config.limits.maxFileChars

variable {config : LayoutConfig}

theorem hasRoom_iff {l : Layout} {moves : List Move} :
    l.HasRoom config moves ↔
      l.pos.line + moves.countP Move.isBreak ≤ max config.limits.maxLines 1 ∧
      (∀ size ∈ Move.lineSizes l.lineChars moves, size ≤ config.limits.maxLineChars) ∧
      l.fileChars + Move.widths moves ≤ config.limits.maxFileChars :=
  ⟨fun h => ⟨h.lines, h.sizes, h.widths⟩, fun h => ⟨h.1, h.2.1, h.2.2⟩⟩

theorem HasRoom.within {l : Layout} {moves : List Move} (h : l.HasRoom config moves)
    (hline : 1 ≤ l.pos.line) : l.Within config := by
  obtain ⟨size, hsize, hle⟩ := Move.exists_le_of_lineSizes l.lineChars moves
  have hlines := h.lines
  have hwidths := h.widths
  exact ⟨hline, by omega, hle.trans (h.sizes size hsize), by omega⟩

theorem fileChars_next (l : Layout) (move : Move) :
    (l.next config move).fileChars = addCount l.fileChars move.width := by
  cases move with
  | visible => rfl
  | tab => rfl
  | lineBreak => rfl
  | wideLineBreak =>
      simp only [next, addCount, Move.width]
      omega

section Exact

variable (hexact : config.limits.Exact)

include hexact

theorem Within.addCount_eq {l : Layout} (h : l.Within config) :
    addCount l.pos.line 1 = l.pos.line + 1 ∧ addCount l.lineChars 1 = l.lineChars + 1 ∧
      addCount l.fileChars 1 = l.fileChars + 1 :=
  ⟨min_eq_left (h.line_le.trans_lt (max_lt hexact.lines (by decide))),
    min_eq_left (h.lineChars_le.trans_lt hexact.lineChars),
    min_eq_left (h.fileChars_le.trans_lt hexact.fileChars)⟩

/-- Counts within limits are exact after one more move. -/
theorem Within.next_counts {l : Layout} (h : l.Within config) (move : Move) :
    (l.next config move).pos.line = l.pos.line + (if move.isBreak then 1 else 0) ∧
    (l.next config move).lineChars = if move.isBreak then 0 else l.lineChars + 1 := by
  obtain ⟨hline, hsize, -⟩ := h.addCount_eq hexact
  cases move with
  | visible => exact ⟨rfl, hsize⟩
  | tab => exact ⟨rfl, hsize⟩
  | lineBreak => exact ⟨hline, rfl⟩
  | wideLineBreak => exact ⟨hline, rfl⟩

/-- Moves stay within limits exactly if there is room for them. -/
theorem forall_within_iff {l : Layout} (hline : 1 ≤ l.pos.line) (moves : List Move) :
    (∀ first, first <+: moves → (l.nextAll config first).Within config) ↔
      l.HasRoom config moves := by
  induction moves generalizing l with
  | nil =>
      simp only [List.prefix_nil, forall_eq, nextAll_nil]
      refine ⟨fun h => ⟨h.line_le, ?_, h.fileChars_le⟩, fun h => h.within hline⟩
      exact List.forall_mem_singleton.mpr h.lineChars_le
  | cons move moves ih =>
      rw [forall_within_cons_iff]
      -- with exact counts, room for all moves is room for those after the first one
      have hstep : l.Within config → ((∀ first, first <+: moves →
          ((l.next config move).nextAll config first).Within config) ↔
            l.HasRoom config (move :: moves)) := by
        intro hwithin
        obtain ⟨hlines, hsizes⟩ := hwithin.next_counts hexact move
        have hwidths : addCount l.fileChars move.width + Move.widths moves ≤
              config.limits.maxFileChars ↔
            l.fileChars + Move.widths (move :: moves) ≤ config.limits.maxFileChars := by
          have hmost := hexact.fileChars
          rw [Move.widths_cons, addCount]
          omega
        rw [ih (by omega), hasRoom_iff, hasRoom_iff, hlines, hsizes, fileChars_next, hwidths,
          Move.lineSizes, List.countP_cons]
        cases move.isBreak with
        | false => simp
        | true => simp [Nat.add_assoc, hwithin.lineChars_le, Nat.add_comm 1]
      constructor
      · rintro ⟨hwithin, hrest⟩
        exact (hstep hwithin).mp hrest
      · intro hroom
        have hwithin := hroom.within hline
        exact ⟨hwithin, (hstep hwithin).mpr hroom⟩

theorem nextAll_counts {l : Layout} {moves : List Move}
    (h : ∀ first, first <+: moves → (l.nextAll config first).Within config) :
    (l.nextAll config moves).pos.line = l.pos.line + moves.countP Move.isBreak ∧
    (l.nextAll config moves).lineChars = Move.lastSize l.lineChars moves ∧
    (l.nextAll config moves).fileChars = l.fileChars + Move.widths moves := by
  induction moves generalizing l with
  | nil => exact ⟨rfl, rfl, rfl⟩
  | cons move moves ih =>
      obtain ⟨hwithin, hrest⟩ := forall_within_cons_iff.mp h
      obtain ⟨hlines, hsizes⟩ := hwithin.next_counts hexact move
      have hchars : addCount l.fileChars move.width = l.fileChars + move.width := by
        have hmost := hexact.fileChars
        have hnext := (hrest [] List.nil_prefix).fileChars_le
        rw [nextAll_nil, fileChars_next] at hnext
        unfold addCount at *
        omega
      obtain ⟨hline, hsize, hfile⟩ := ih hrest
      rw [nextAll_cons, hline, hsize, hfile, hlines, hsizes, fileChars_next, hchars,
        List.countP_cons, Move.widths_cons]
      exact ⟨by omega, rfl, by omega⟩

/-- What it says of a layout that a move over it is an error: it would go beyond a limit by one. -/
def StopsAt (config : LayoutConfig) (l : Layout) (move : Move) : LexicalFault → Prop
  | .tooManyLines => move.isBreak = true ∧ l.pos.line = max config.limits.maxLines 1
  | .tooManyCharactersInLine => move.isBreak = false ∧ l.lineChars = config.limits.maxLineChars
  | .tooManyCharactersInFile => l.fileChars = config.limits.maxFileChars ∨
      move = .wideLineBreak ∧ l.fileChars + 1 = config.limits.maxFileChars
  | _ => False

theorem Within.stopsAt_of_visible {l : Layout} (h : l.Within config) {columns : Nat} {move : Move}
    (hmove : move.isBreak = false) {e : LexicalError}
    (herror : l.visible config columns = .error e) :
    e.pos = l.pos ∧ l.StopsAt config move e.kind := by
  obtain ⟨-, hsize, hfile⟩ := h.addCount_eq hexact
  have hsizes := h.lineChars_le
  have hfiles := h.fileChars_le
  rw [visible_eq, hsize, hfile] at herror
  split_ifs at herror with hlineChars hfileChars
  · cases herror
    exact ⟨rfl, hmove, by omega⟩
  · cases herror
    exact ⟨rfl, .inl (by omega)⟩

theorem Within.step_eq_error {l : Layout} (h : l.Within config) {move : Move} {e : LexicalError}
    (herror : l.step config move = .error e) : e.pos = l.pos ∧ l.StopsAt config move e.kind := by
  obtain ⟨hline, -, hfile⟩ := h.addCount_eq hexact
  have hlines := h.line_le
  have hfiles := h.fileChars_le
  have hpos := h.line_pos
  cases move with
  | visible => exact h.stopsAt_of_visible hexact rfl herror
  | tab => exact h.stopsAt_of_visible hexact rfl herror
  | lineBreak =>
      rw [step, lineBreak_eq, hline, hfile] at herror
      split_ifs at herror with hfileChars hbreak
      · cases herror
        exact ⟨rfl, .inl (by omega)⟩
      · cases herror
        exact ⟨rfl, rfl, by omega⟩
  | wideLineBreak =>
      rw [step, wideLineBreak_eq, lineBreak_eq, hline, hfile] at herror
      have hmost := hexact.fileChars
      split_ifs at herror with hfirst hsecond hbreak
      · cases herror
        exact ⟨rfl, .inl (by omega)⟩
      · cases herror
        refine ⟨rfl, .inr ⟨rfl, ?_⟩⟩
        unfold addCount at hsecond
        dsimp only at hsecond
        omega
      · cases herror
        exact ⟨rfl, rfl, by omega⟩

end Exact

/-- Moves fail at the first one that is not made. -/
theorem stepAll_eq_error {l : Layout} (h : l.Within config) {moves : List Move} {e : LexicalError}
    (herror : l.stepAll config moves = .error e) :
    ∃ done move rest, moves = done ++ move :: rest ∧
      l.stepAll config done = .ok (l.nextAll config done) ∧
      (l.nextAll config done).step config move = .error e := by
  induction moves generalizing l with
  | nil => cases herror
  | cons move moves ih =>
      rw [stepAll_cons] at herror
      rcases Except.bind_eq_error_iff.mp herror with hfirst | ⟨moved, hstep, hrest⟩
      · exact ⟨[], move, moves, rfl, rfl, hfirst⟩
      · obtain ⟨rfl, hmoved⟩ := (h.step_eq_ok_iff move moved).mp hstep
        obtain ⟨done, next, rest, rfl, hdone, hnext⟩ := ih hmoved hrest
        refine ⟨move :: done, next, rest, rfl, ?_, hnext⟩
        rw [stepAll_cons, hstep]
        exact hdone

end Layout

/-! ## Sources within limits -/

/-- A source is counted up to a place: one count is beyond its limit by one there. -/
inductive ExceedsLimit (limits : LayoutLimits) (marks : Nat) (text : List Char) :
    LexicalFault → Prop where
  | lines : (Move.lineSizes 0 (Move.ofText text)).length = limits.maxLines + 1 →
      ExceedsLimit limits marks text .tooManyLines
  | lineChars :
      (Move.lineSizes 0 (Move.ofText text)).getLast? = some (limits.maxLineChars + 1) →
      ExceedsLimit limits marks text .tooManyCharactersInLine
  | fileChars : marks + text.length = limits.maxFileChars + 1 →
      ExceedsLimit limits marks text .tooManyCharactersInFile

namespace Reading

variable {config : LayoutConfig} {source : List UInt8}

/-- An error of a limit is that of the moves over what is read. -/
theorem stepAll_eq_error_of_isLimit (hwithin : (first source).Within config) {e : LexicalError}
    (h : (ofSource config source).outcome = .error e) (hlimit : e.kind.isLimit = true) :
    ∃ text rest, body source = encode text ++ rest ∧
      (first source).stepAll config (Move.ofText text) = .error e := by
  obtain ⟨text, lexemes, hbody, -, hread⟩ := exists_text source
  rw [(hread config hwithin).1] at h
  rcases Except.bind_eq_error_iff.mp h with herror | ⟨reached, hreached, hfinish⟩
  · exact ⟨text, _, hbody, herror⟩
  · cases hfault : (Pieces.ofSource (body source)).fault? with
    | none =>
        rw [hfault] at hfinish
        cases hfinish
    | some fault =>
        obtain ⟨inside, after, read, -, hobstructs, htake, -⟩ := Pieces.showsIn_of_fault hfault
        have hstarts : encode read <+: (Pieces.ofSource (body source)).remaining :=
          htake ▸ List.take_prefix _ _
        rw [hfault, finish_fault htake] at hfinish
        rcases Except.bind_eq_error_iff.mp hfinish with hstop | ⟨stop, -, hkind⟩
        · obtain ⟨rest, hrest⟩ := hstarts
          refine ⟨text ++ read, rest, ?_, ?_⟩
          · rw [encode_append, List.append_assoc, hrest, ← hbody]
          · rw [Move.ofText_append (Pieces.unsplit_of_prefix ⟨rest, hrest⟩ text),
              Layout.stepAll_append, hreached]
            exact hstop
        · obtain rfl := Except.error.inj hkind
          rw [hobstructs.isLimit_eq] at hlimit
          cases hlimit

/-- A source is read to its end exactly if its moves are made and it has no fault. -/
theorem exists_outcome_ok_iff (hwithin : (first source).Within config) {text : List Char}
    (houtcome : (ofSource config source).outcome =
      ((first source).stepAll config (Move.ofText text)).bind fun l =>
        finish config l (Pieces.ofSource (body source)).remaining
          (Pieces.ofSource (body source)).fault?) :
    (∃ stop, (ofSource config source).outcome = .ok stop) ↔
      (∀ moves, moves <+: Move.ofText text → ((first source).nextAll config moves).Within config) ∧
        (Pieces.ofSource (body source)).fault? = none := by
  constructor
  · rintro ⟨stop, hstop⟩
    obtain ⟨hreached, -, hfault⟩ := reached_of_outcome hwithin houtcome hstop
    exact ⟨((hwithin.stepAll_eq_ok_iff _ _).mp hreached).2, hfault⟩
  · rintro ⟨hmoves, hfault⟩
    rw [houtcome, (hwithin.stepAll_eq_ok_iff _ _).mpr ⟨rfl, hmoves⟩]
    exact ⟨_, finish_eq_ok_iff.mpr ⟨hfault, rfl⟩⟩

/-- The layout of a source has room for its text if the text is within the limits. -/
theorem hasRoom_first_iff (hline : 1 ≤ config.limits.maxLines) {text : List Char} :
    (first source).HasRoom config (Move.ofText text) ↔
      (Move.lineSizes 0 (Move.ofText text)).length ≤ config.limits.maxLines ∧
      (∀ size ∈ Move.lineSizes 0 (Move.ofText text), size ≤ config.limits.maxLineChars) ∧
      (first source).fileChars + text.length ≤ config.limits.maxFileChars := by
  rw [Layout.hasRoom_iff, Move.length_lineSizes, Move.widths_ofText, max_eq_left hline,
    Nat.add_comm (first source).pos.line]
  rfl

/-- Where a move would go beyond a limit, its first character or all of it does so. -/
theorem exists_exceedsLimit_of_stopsAt (hexact : config.limits.Exact)
    (hline : 1 ≤ config.limits.maxLines) {before last : List Char} {move : Move}
    (hunsplit : Unsplit before last) (hlast : Move.ofText last = [move])
    (hform : (∃ char, last = [char]) ∨ last = ['\r', '\n'] ∧ move = .wideLineBreak)
    (hbefore : ∀ moves, moves <+: Move.ofText before →
      ((first source).nextAll config moves).Within config) {kind : LexicalFault}
    (hstops : ((first source).nextAll config (Move.ofText before)).StopsAt config move kind) :
    ∃ offending, offending <+: last ∧
      ((∃ char, offending = [char]) ∨ offending = ['\r', '\n']) ∧
      ExceedsLimit config.limits (first source).fileChars (before ++ offending) kind := by
  obtain ⟨hlines, hsizes, hchars⟩ := Layout.nextAll_counts hexact hbefore
  have hform' := hform.imp_right And.left
  have hmoves : Move.ofText (before ++ last) = Move.ofText before ++ [move] := by
    rw [Move.ofText_append hunsplit, hlast]
  rw [Move.widths_ofText] at hchars
  cases kind with
  | tooManyLines =>
      obtain ⟨hbreak, hstop⟩ := hstops
      have hfirst : (first source).pos.line = 1 := rfl
      refine ⟨last, List.prefix_rfl, hform', .lines ?_⟩
      rw [hmoves, Move.length_lineSizes, List.countP_append, List.countP_singleton, if_pos hbreak]
      omega
  | tooManyCharactersInLine =>
      obtain ⟨hbreak, hstop⟩ := hstops
      refine ⟨last, List.prefix_rfl, hform', .lineChars ?_⟩
      have hsize : Move.lastSize 0 (Move.ofText before) = config.limits.maxLineChars :=
        hsizes.symm.trans hstop
      rw [hmoves, Move.getLast?_lineSizes, Move.lastSize_append, hsize]
      simp [Move.lastSize, hbreak]
  | tooManyCharactersInFile =>
      rcases hstops with hstop | ⟨rfl, hstop⟩
      · obtain ⟨char, tail, rfl⟩ : ∃ char tail, last = char :: tail := by
          rcases hform with ⟨char, rfl⟩ | ⟨rfl, -⟩
          · exact ⟨char, [], rfl⟩
          · exact ⟨_, _, rfl⟩
        refine ⟨[char], ⟨tail, rfl⟩, .inl ⟨char, rfl⟩, .fileChars ?_⟩
        rw [List.length_append, List.length_singleton]
        omega
      · rcases hform with ⟨char, rfl⟩ | ⟨rfl, -⟩
        · rw [Move.ofText_singleton, List.cons.injEq] at hlast
          exact absurd hlast.1 (Move.ofChar_ne_wideLineBreak char)
        · refine ⟨['\r', '\n'], List.prefix_rfl, .inr rfl, .fileChars ?_⟩
          rw [List.length_append]
          simp only [List.length_cons, List.length_nil]
          omega
  | _ => exact absurd hstops id

/-- An error of a limit comes where the text goes beyond it by one. -/
theorem exists_exceedsLimit (hexact : config.limits.Exact) (hline : 1 ≤ config.limits.maxLines)
    (hwithin : (first source).Within config) {e : LexicalError}
    (h : (ofSource config source).outcome = .error e) (hlimit : e.kind.isLimit = true) :
    ∃ before last rest, body source = encode (before ++ last) ++ rest ∧
      ((∃ char, last = [char]) ∨ last = ['\r', '\n']) ∧
      e.pos = (Position.start.afterText config.tabStop before).capped ∧
      ExceedsLimit config.limits (first source).fileChars (before ++ last) e.kind := by
  obtain ⟨text, rest, hbody, herror⟩ := stepAll_eq_error_of_isLimit hwithin h hlimit
  obtain ⟨done, move, moves, hmoves, hdone, hmove⟩ := Layout.stepAll_eq_error hwithin herror
  obtain ⟨before, after, rfl, hbefore, rfl, hafter⟩ := Move.exists_of_ofText_eq_append hmoves
  obtain ⟨last, more, rfl, -, hlast, -, hform⟩ := Move.exists_of_ofText_eq_cons hafter
  have hne : last ≠ [] := by
    rintro rfl
    cases hlast
  have hprefixes := ((hwithin.stepAll_eq_ok_iff _ _).mp hdone).2
  obtain ⟨hpos, hstops⟩ := (hwithin.of_stepAll hdone).2.step_eq_error hexact hmove
  obtain ⟨offending, ⟨tail, rfl⟩, hoffending, hexceeds⟩ :=
    exists_exceedsLimit_of_stopsAt hexact hline (hbefore.of_append_right hne) hlast hform hprefixes
      hstops
  have hstart : (first source).pos = Position.start.capped := rfl
  refine ⟨before, offending, encode (tail ++ more) ++ rest, ?_, hoffending, ?_, hexceeds⟩
  · simp [hbody]
  · rw [hpos, Layout.nextAll_capped hstart]
    rfl

end Reading

/-! ## Tokens within limits -/

/-- Lines do not depend on tab stops. -/
theorem Layout.line_nextAll (config other : LayoutConfig) {l l' : Layout}
    (h : l.pos.line = l'.pos.line) (moves : List Move) :
    (l.nextAll config moves).pos.line = (l'.nextAll other moves).pos.line := by
  induction moves generalizing l l' with
  | nil => exact h
  | cons move moves ih =>
      refine ih ?_
      cases move with
      | visible => exact h
      | tab => exact h
      | lineBreak => exact congrArg (addCount · 1) h
      | wideLineBreak => exact congrArg (addCount · 1) h

/-- What is left of a token without its column. -/
def Token.onLine (token : Token) : TokenKind × Nat × Payload Name :=
  (token.kind, token.pos.line, token.value)

theorem PlacedLexeme.map_internOnto_congr (names : Interner hash) {done done' : List Token}
    (hdone : done.map Token.onLine = done'.map Token.onLine) {placed placed' : List PlacedLexeme}
    (h : placed.map (fun placed => (placed.lexeme, placed.pos.line)) =
      placed'.map fun placed => (placed.lexeme, placed.pos.line)) :
    (internOnto names done placed).1.map Token.onLine =
        (internOnto names done' placed').1.map Token.onLine ∧
      (internOnto names done placed).2 = (internOnto names done' placed').2 := by
  induction placed generalizing names done done' placed' with
  | nil =>
      obtain rfl : placed' = [] := List.map_eq_nil_iff.mp h.symm
      simp [internOnto, hdone]
  | cons first placed ih =>
      cases placed' with
      | nil => cases h
      | cons first' placed' =>
          obtain ⟨hfirst, hrest⟩ := List.cons.inj h
          obtain ⟨hlexeme, hline⟩ := Prod.mk.inj hfirst
          rw [internOnto, internOnto]
          simp only [intern, ← hlexeme]
          refine ih _ ?_ hrest
          rw [List.map_cons, List.map_cons, hdone, Token.onLine, Token.onLine, hline]

namespace Reading

variable {config : LayoutConfig} {source : List UInt8}

/-- A source is read to its end within limits exactly if it is without them and has room. -/
theorem exists_ok_iff_unlimited (hexact : config.limits.Exact)
    (hlines : 1 ≤ config.limits.maxLines) (hchars : 1 ≤ config.limits.maxFileChars)
    (tabStop : Nat) :
    (∃ stop, (ofSource config source).outcome = .ok stop) ↔
      (∃ stop, (ofSource ⟨tabStop, .unlimited⟩ source).outcome = .ok stop) ∧
      ∃ text, body source = encode text ∧
        (Move.lineSizes 0 (Move.ofText text)).length ≤ config.limits.maxLines ∧
        (∀ size ∈ Move.lineSizes 0 (Move.ofText text), size ≤ config.limits.maxLineChars) ∧
        (first source).fileChars + text.length ≤ config.limits.maxFileChars := by
  have hwithin : (first source).Within config := first_within_iff.mpr fun _ => hchars
  have hwithin' : (first source).Within ⟨tabStop, .unlimited⟩ :=
    first_within_iff.mpr fun _ => (by decide : 1 ≤ countMax)
  obtain ⟨text, lexemes, hbody, -, hread⟩ := exists_text source
  have hmoves := hwithin'.stepAll_unlimited rfl (Move.ofText text)
  have hunlimited := ((hwithin'.stepAll_eq_ok_iff _ _).mp hmoves).2
  rw [exists_outcome_ok_iff hwithin (hread config hwithin).1,
    exists_outcome_ok_iff hwithin' (hread _ hwithin').1, and_iff_right hunlimited,
    Layout.forall_within_iff hexact le_rfl, hasRoom_first_iff hlines, and_comm]
  refine and_congr_right fun hfault => ?_
  rw [Pieces.remaining_eq_nil hfault, List.append_nil] at hbody
  constructor
  · intro hroom
    exact ⟨text, hbody, hroom⟩
  · rintro ⟨other, hother, hroom⟩
    rwa [encode_injective (hbody.symm.trans hother)]

/-- Where two layouts read a source to its end, they read the same on the same lines. -/
theorem lexemes_onLine {other : LayoutConfig} {stop stop' : Position}
    (h : (ofSource config source).outcome = .ok stop)
    (h' : (ofSource other source).outcome = .ok stop') :
    (ofSource config source).lexemes.map (fun placed => (placed.lexeme, placed.pos.line)) =
        (ofSource other source).lexemes.map (fun placed => (placed.lexeme, placed.pos.line)) ∧
      stop.line = stop'.line := by
  obtain ⟨text, lexemes, -, -, hread⟩ := exists_text source
  obtain ⟨houtcome, hlexemes⟩ := hread config (within_of_outcome h)
  obtain ⟨houtcome', hlexemes'⟩ := hread other (within_of_outcome h')
  obtain ⟨hreached, rfl, -⟩ := reached_of_outcome (within_of_outcome h) houtcome h
  obtain ⟨hreached', rfl, -⟩ := reached_of_outcome (within_of_outcome h') houtcome' h'
  have hlines := Layout.line_nextAll config other (rfl : (first source).pos.line = _)
  rw [hlexemes _ hreached, hlexemes' _ hreached', List.map_map, List.map_map]
  refine ⟨List.map_congr_left fun entry _ => ?_, hlines _⟩
  exact Prod.ext rfl (hlines (Move.ofText entry.1))

end Reading

/-- A source has tokens within limits exactly if it has some without them, and its lines, the
characters of each and the characters of the file are no more than the limits. The tokens are then
the same but for their columns, which follow the tab stops. Each error of a limit is reported at the
character whose count is one more than the limit.

A line is counted without its end, and a byte-order mark is a character of the file. -/
theorem tokenize_limits {config : LayoutConfig} (hexact : config.limits.Exact)
    (hlines : 1 ≤ config.limits.maxLines) (hchars : 1 ≤ config.limits.maxFileChars) (tabStop : Nat)
    (source : List UInt8) (names : Interner hash) :
    ((∃ tokens, (tokenize config source names).1 = .ok tokens) ↔
      (∃ tokens, (tokenize ⟨tabStop, .unlimited⟩ source names).1 = .ok tokens) ∧
      ∃ text, Reading.body source = encode text ∧
        (Move.lineSizes 0 (Move.ofText text)).length ≤ config.limits.maxLines ∧
        (∀ size ∈ Move.lineSizes 0 (Move.ofText text), size ≤ config.limits.maxLineChars) ∧
        (Reading.first source).fileChars + text.length ≤ config.limits.maxFileChars) ∧
    (∀ tokens others, (tokenize config source names).1 = .ok tokens →
      (tokenize ⟨tabStop, .unlimited⟩ source names).1 = .ok others →
      tokens.map Token.onLine = others.map Token.onLine ∧
        (tokenize config source names).2 = (tokenize ⟨tabStop, .unlimited⟩ source names).2) ∧
    ∀ e, (tokenize config source names).1 = .error e → e.kind.isLimit = true →
      ∃ before last rest, Reading.body source = encode (before ++ last) ++ rest ∧
        ((∃ char, last = [char]) ∨ last = ['\r', '\n']) ∧
        e.pos = (Position.start.afterText config.tabStop before).capped ∧
        ExceedsLimit config.limits (Reading.first source).fileChars (before ++ last) e.kind := by
  have hwithin : (Reading.first source).Within config :=
    Reading.first_within_iff.mpr fun _ => hchars
  refine ⟨?_, fun tokens others hok hother => ?_, fun e he hlimit => ?_⟩
  · rw [exists_tokenize_ok_iff, exists_tokenize_ok_iff]
    exact Reading.exists_ok_iff_unlimited hexact hlines hchars tabStop
  · obtain ⟨stop, hstop⟩ := (exists_tokenize_ok_iff config source names).mp ⟨tokens, hok⟩
    obtain ⟨stop', hstop'⟩ := (exists_tokenize_ok_iff _ source names).mp ⟨others, hother⟩
    obtain ⟨hlexemes, hline⟩ := Reading.lexemes_onLine hstop hstop'
    obtain ⟨htokens, hnames⟩ := PlacedLexeme.map_internOnto_congr names rfl hlexemes
    rw [tokenize_eq, hstop] at hok
    rw [tokenize_eq, hstop'] at hother
    obtain rfl := Except.ok.inj hok
    obtain rfl := Except.ok.inj hother
    rw [tokenize_eq, tokenize_eq, List.map_append, List.map_append]
    have hend : (Token.endOfFile stop).onLine = (Token.endOfFile stop').onLine := by
      rw [Token.onLine, Token.onLine, Token.endOfFile, Token.endOfFile, hline]
    exact ⟨by rw [List.map_singleton, List.map_singleton, hend]; exact congrArg (· ++ _) htokens,
      hnames⟩
  · exact Reading.exists_exceedsLimit hexact hlines hwithin (tokenize_eq_error_iff.mp he) hlimit

theorem tokenize_limits_two_lines :
    (⟨2, 2, 9⟩ : LayoutLimits).Exact ∧
    (∃ tokens, (tokenize ⟨4, ⟨2, 2, 9⟩⟩ (encode [';', '\n', '\t', ';']) .noNames).1 = .ok tokens) ∧
    ∃ before last rest,
      Reading.body (encode [';', '\n', '\t', ';', ';']) = encode (before ++ last) ++ rest ∧
      ((∃ char, last = [char]) ∨ last = ['\r', '\n']) ∧
      ⟨2, 5⟩ = (Position.start.afterText 4 before).capped ∧
      ExceedsLimit ⟨2, 2, 9⟩ 0 (before ++ last) .tooManyCharactersInLine := by
  have hexact : (⟨4, ⟨2, 2, 9⟩⟩ : LayoutConfig).limits.Exact := ⟨by decide, by decide, by decide⟩
  have hlimits := fun source =>
    tokenize_limits hexact (by decide) (by decide) 8 source .noNames
  refine ⟨hexact, ?_, ?_⟩
  · refine (hlimits _).1.mpr
      ⟨?_, [';', '\n', '\t', ';'], by decide, by decide, by decide, by decide⟩
    exact ⟨[⟨.symbol .semicolon, ⟨1, 1⟩, .none⟩, ⟨.symbol .semicolon, ⟨2, 8⟩, .none⟩,
      .endOfFile ⟨2, 9⟩], by decide +kernel⟩
  · exact (hlimits _).2.2 ⟨.tooManyCharactersInLine, ⟨2, 5⟩⟩ (by decide +kernel) rfl

end FrontEnd
