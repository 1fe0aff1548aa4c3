import FrontEnd.Proofs.Lexical.Layout
import FrontEnd.Proofs.Lexical.Text

/-! # Moves over a text

A layout moves over a text character by character, and over a line end of two at once. -/

namespace FrontEnd

open String (utf8EncodeChar)
open LexicalGrammar

/-- The second of two texts does not start inside of a line end. -/
def Unsplit (first second : List Char) : Prop :=
  ¬ (first.getLast? = some '\r' ∧ second.head? = some '\n')

namespace Unsplit

variable {first second third : List Char}

theorem nil_left (second : List Char) : Unsplit [] second := fun h => nomatch h.1

theorem nil_right (first : List Char) : Unsplit first [] := fun h => nomatch h.2

theorem append_left (h : Unsplit second third) (hsecond : second ≠ []) :
    Unsplit (first ++ second) third := fun hsplit =>
  h ⟨by rw [← List.getLast?_append_of_ne_nil first hsecond, hsplit.1], hsplit.2⟩

theorem of_append_right (h : Unsplit first (second ++ third)) (hsecond : second ≠ []) :
    Unsplit first second := fun hsplit =>
  h ⟨hsplit.1, by rw [List.head?_append_of_ne_nil _ hsecond, hsplit.2]⟩

theorem append_right (h : Unsplit first second) (hsecond : second ≠ []) :
    Unsplit first (second ++ third) := fun hsplit =>
  h ⟨hsplit.1, by rw [← List.head?_append_of_ne_nil second hsecond, hsplit.2]⟩

end Unsplit

/-! ## Pieces are not split -/

theorem LexicalGrammar.InBlock.getLast?_eq {enclosing : Nat} {text : List UInt8}
    (h : InBlock enclosing text) : text.getLast? = some 0x2F := by
  induction h with
  | close => rfl
  | leave _ ih => rw [List.getLast?_append, ih]; rfl
  | enter _ ih => rw [List.getLast?_append, ih]; rfl
  | character _ _ _ _ _ ih => rw [List.getLast?_append, ih]; rfl

/-- Of the pieces only a line end ends in a carriage return. -/
theorem LexicalGrammar.IsTrivia.eq_of_getLast? {text after : List UInt8} (h : IsTrivia text after)
    (hlast : text.getLast? = some 0x0D) : text = [0x0D] := by
  cases h with
  | carriageReturn => rfl
  | lineComment text htext _ =>
      have hmem : 0x0D ∈ lineMark ++ encode text := List.mem_of_getLast? hlast
      rw [List.mem_append, mem_encode_iff (by decide)] at hmem
      rcases hmem with hmem | hmem
      · exact absurd hmem (by decide)
      · exact absurd rfl (htext _ hmem).2.2
  | blockComment _ hbody =>
      rw [List.getLast?_append, hbody.getLast?_eq] at hlast
      cases hlast
  | space => cases hlast
  | tab => cases hlast
  | lineFeed => cases hlast
  | wideBreak => cases hlast

/-- No piece ends inside of a line end of two characters. -/
theorem IsPiece.unsplit {piece text : List Char} {after : List UInt8} {lexeme? : Option Lexeme}
    (h : IsPiece (encode piece) (encode text ++ after) lexeme?) : Unsplit piece text := by
  rintro ⟨hlast, hhead⟩
  have hlast : (encode piece).getLast? = some 0x0D := by
    obtain ⟨init, rfl⟩ := List.getLast?_eq_some_iff.mp hlast
    rw [encode_append, List.getLast?_append]
    rfl
  cases lexeme? with
  | none =>
      obtain ⟨tail, rfl⟩ := List.head?_eq_some_iff.mp hhead
      exact h.2 ⟨h.1.eq_of_getLast? hlast, rfl⟩
  | some lexeme => exact absurd (IsLexeme.isGraphic h _ (List.mem_of_getLast? hlast)).1 (by decide)

theorem IsPiece.unsplit_append {piece text : List Char} {after : List UInt8}
    {lexeme? : Option Lexeme} (h : IsPiece (encode piece) (encode text ++ after) lexeme?)
    (before : List Char) : Unsplit (before ++ piece) text :=
  h.unsplit.append_left h.text_ne_nil

/-! ## Moves -/

/-- What is moved over in one step. -/
inductive Move where
  | visible
  | tab
  | lineBreak
  | wideLineBreak
deriving DecidableEq

namespace Move

def ofChar (char : Char) : Move :=
  if char = '\n' ∨ char = '\r' then .lineBreak else if char = '\t' then .tab else .visible

/-- The moves over a text. A carriage return and a line feed after it are one line end. -/
def ofText : List Char → List Move
  | [] => []
  | '\r' :: '\n' :: text => .wideLineBreak :: ofText text
  | char :: text => ofChar char :: ofText text

theorem ofText_append {first second : List Char} (h : Unsplit first second) :
    ofText (first ++ second) = ofText first ++ ofText second := by
  fun_induction ofText first with
  | case1 => rfl
  | case2 text ih =>
      have hrest : Unsplit text second := fun hsplit =>
        h ⟨by simp [List.getLast?_cons, hsplit.1], hsplit.2⟩
      simp [ofText, ih hrest]
  | case3 char text hwide ih =>
      have hrest : Unsplit text second := fun hsplit =>
        h ⟨by simp [List.getLast?_cons, hsplit.1], hsplit.2⟩
      rw [List.cons_append, ofText, ih hrest, List.cons_append]
      rintro tail rfl htail
      cases text with
      | nil => exact h ⟨rfl, by simpa using congrArg List.head? htail⟩
      | cons next text =>
          obtain ⟨rfl, -⟩ := List.cons.inj htail
          exact hwide text rfl rfl

theorem ofText_ne_nil {text : List Char} (h : text ≠ []) : ofText text ≠ [] := by
  fun_cases ofText text with
  | case1 => exact absurd rfl h
  | case2 text => exact List.cons_ne_nil _ _
  | case3 char text hwide => exact List.cons_ne_nil _ _

end Move

namespace Layout

/-- One move. -/
def step (config : LayoutConfig) (l : Layout) : Move → Except LexicalError Layout
  | .visible => l.visible config 1
  | .tab => l.tab config
  | .lineBreak => l.lineBreak config
  | .wideLineBreak => l.wideLineBreak config

/-- Where a move leads, whatever the limits. -/
def next (config : LayoutConfig) (l : Layout) : Move → Layout
  | .visible => ⟨l.pos.right 1, addCount l.lineChars 1, addCount l.fileChars 1⟩
  | .tab => ⟨l.pos.right (tabColumns config l.pos.column), addCount l.lineChars 1,
      addCount l.fileChars 1⟩
  | .lineBreak => ⟨l.pos.nextLine, 0, addCount l.fileChars 1⟩
  | .wideLineBreak => ⟨l.pos.nextLine, 0, addCount (addCount l.fileChars 1) 1⟩

/-- Where several moves lead, whatever the limits. -/
def nextAll (config : LayoutConfig) (l : Layout) (moves : List Move) : Layout :=
  moves.foldl (next config) l

/-- Several moves, up to the first one beyond a limit. -/
def stepAll (config : LayoutConfig) (l : Layout) (moves : List Move) : Except LexicalError Layout :=
  moves.foldlM (step config) l

variable {config : LayoutConfig} {l : Layout}

@[simp] theorem nextAll_nil : l.nextAll config [] = l := rfl

@[simp] theorem stepAll_nil : l.stepAll config [] = .ok l := rfl

theorem stepAll_cons (move : Move) (moves : List Move) :
    l.stepAll config (move :: moves) = (l.step config move).bind (stepAll config · moves) :=
  List.foldlM_cons

theorem nextAll_cons (move : Move) (moves : List Move) :
    l.nextAll config (move :: moves) = (l.next config move).nextAll config moves := rfl

theorem nextAll_append (first second : List Move) :
    l.nextAll config (first ++ second) = (l.nextAll config first).nextAll config second :=
  List.foldl_append

theorem stepAll_append (first second : List Move) :
    l.stepAll config (first ++ second) = (l.stepAll config first).bind (stepAll config · second) :=
  List.foldlM_append

/-! ## Bytes and characters -/

theorem across_wide (rest : List UInt8) :
    l.across config (0x0D :: 0x0A :: rest) =
      (l.wideLineBreak config).bind (across config · rest) := by
  rw [across]
  cases l.wideLineBreak config <;> rfl

theorem across_cons {byte : UInt8} {rest : List UInt8}
    (hwide : ¬ (byte = 0x0D ∧ rest.head? = some 0x0A)) :
    l.across config (byte :: rest) =
      (if byte = 0x0A ∨ byte = 0x0D then l.lineBreak config
        else if byte = 0x09 then l.tab config
        else if Utf8.isContinuation byte then .ok l
        else l.visible config 1).bind (across config · rest) := by
  rw [across]
  · generalize (if byte = 0x0A ∨ byte = 0x0D then _ else _ : Except LexicalError Layout) = moved
    cases moved <;> rfl
  · rintro tail rfl rfl
    exact hwide ⟨rfl, rfl⟩

theorem across_following {following : List UInt8}
    (h : following.all Utf8.isContinuation = true) (rest : List UInt8) :
    l.across config (following ++ rest) = l.across config rest := by
  induction following with
  | nil => rfl
  | cons byte following ih =>
      obtain ⟨hbyte, hfollowing⟩ := Bool.and_eq_true_iff.mp h
      have hmark : ∀ mark, Utf8.isContinuation mark = false → byte ≠ mark := by
        rintro mark hmark rfl
        rw [hmark] at hbyte
        cases hbyte
      have hreturn := hmark 0x0D rfl
      rw [List.cons_append, across_cons (fun hwide => hreturn hwide.1),
        if_neg (by simp [hreturn, hmark 0x0A rfl]), if_neg (hmark 0x09 rfl), if_pos hbyte]
      exact ih hfollowing

/-- The first byte of a character makes its move. -/
theorem step_ofChar {char : Char} {lead : UInt8} {following : List UInt8}
    (h : utf8EncodeChar char = lead :: following) (l : Layout) :
    l.step config (.ofChar char) =
      if lead = 0x0A ∨ lead = 0x0D then l.lineBreak config
      else if lead = 0x09 then l.tab config
      else if Utf8.isContinuation lead then .ok l
      else l.visible config 1 := by
  have hlead : ∀ mark, mark.toNat < 128 → (lead = mark ↔ char = asChar mark) := by
    intro mark hmark
    rw [← head?_encodeChar_eq_iff hmark, h, List.head?_cons, Option.some.injEq]
  have hfeed : lead = 0x0A ↔ char = '\n' := hlead 0x0A (by decide)
  have hreturn : lead = 0x0D ↔ char = '\r' := hlead 0x0D (by decide)
  have htab : lead = 0x09 ↔ char = '\t' := hlead 0x09 (by decide)
  simp only [Move.ofChar, hfeed, hreturn, htab, (Utf8.continues_of_encode h).1,
    Bool.false_eq_true, if_false]
  split_ifs <;> rfl

/-- A layout moves over the bytes of a text as over its characters. -/
theorem across_encode (l : Layout) (text : List Char) :
    l.across config (encode text) = l.stepAll config (Move.ofText text) := by
  fun_induction Move.ofText text generalizing l with
  | case1 => rfl
  | case2 text ih =>
      have hbytes : encode ('\r' :: '\n' :: text) = 0x0D :: 0x0A :: encode text := rfl
      rw [hbytes, across_wide, stepAll_cons]
      exact congrArg _ (funext ih)
  | case3 char text hwide ih =>
      obtain ⟨lead, following, hencode⟩ :=
        List.exists_cons_of_ne_nil (Comment.encodeChar_ne_nil char)
      have hnarrow : ¬ (lead = 0x0D ∧ (following ++ encode text).head? = some 0x0A) := by
        rintro ⟨rfl, hfeed⟩
        obtain rfl : char = '\r' :=
          (head?_encodeChar_eq_iff (by decide)).mp (congrArg List.head? hencode)
        obtain ⟨-, rfl⟩ := List.cons.inj (hencode.symm.trans Comment.encodeChar_carriageReturn)
        obtain ⟨tail, rfl⟩ := List.head?_eq_some_iff.mp
          ((head?_encode_eq_iff (by decide)).mp hfeed)
        exact hwide tail rfl rfl
      rw [Comment.encode_cons, hencode, List.cons_append, across_cons hnarrow, stepAll_cons,
        step_ofChar hencode]
      refine congrArg _ (funext fun moved => ?_)
      rw [across_following (Utf8.continues_of_encode hencode).2, ih]

/-! ## Limits -/

/-- A layout has met no character beyond a limit. The first line is there whatever the limit. -/
structure Within (config : LayoutConfig) (l : Layout) : Prop where
  line_pos : 1 ≤ l.pos.line
  line_le : l.pos.line ≤ max config.limits.maxLines 1
  lineChars_le : l.lineChars ≤ config.limits.maxLineChars
  fileChars_le : l.fileChars ≤ config.limits.maxFileChars

theorem visible_eq (config : LayoutConfig) (columns : Nat) (l : Layout) :
    l.visible config columns =
      if config.limits.maxLineChars < addCount l.lineChars 1 then
        .error ⟨.tooManyCharactersInLine, l.pos⟩
      else if config.limits.maxFileChars < addCount l.fileChars 1 then
        .error ⟨.tooManyCharactersInFile, l.pos⟩
      else .ok ⟨l.pos.right columns, addCount l.lineChars 1, addCount l.fileChars 1⟩ := by
  simp only [visible, countInLine, countInFile]
  split_ifs <;> rfl

theorem lineBreak_eq (config : LayoutConfig) (l : Layout) :
    l.lineBreak config =
      if config.limits.maxFileChars < addCount l.fileChars 1 then
        .error ⟨.tooManyCharactersInFile, l.pos⟩
      else if config.limits.maxLines < addCount l.pos.line 1 then .error ⟨.tooManyLines, l.pos⟩
      else .ok ⟨l.pos.nextLine, 0, addCount l.fileChars 1⟩ := by
  simp only [lineBreak, countInFile]
  split_ifs with hfile hlines
  · rfl
  · exact if_pos hlines
  · exact if_neg hlines

theorem wideLineBreak_eq (config : LayoutConfig) (l : Layout) :
    l.wideLineBreak config =
      if config.limits.maxFileChars < addCount l.fileChars 1 then
        .error ⟨.tooManyCharactersInFile, l.pos⟩
      else lineBreak config { l with fileChars := addCount l.fileChars 1 } := by
  simp only [wideLineBreak, countInFile]
  split_ifs <;> rfl

theorem Within.visible_eq_ok_iff {l : Layout} (h : l.Within config) (columns : Nat)
    (moved : Layout) :
    l.visible config columns = .ok moved ↔
      moved = ⟨l.pos.right columns, addCount l.lineChars 1, addCount l.fileChars 1⟩ ∧
        moved.Within config := by
  rw [visible_eq]
  constructor
  · intro hok
    split_ifs at hok with hline hfile
    cases hok
    exact ⟨rfl, h.line_pos, h.line_le, not_lt.mp hline, not_lt.mp hfile⟩
  · rintro ⟨rfl, hmoved⟩
    rw [if_neg (not_lt.mpr hmoved.lineChars_le), if_neg (not_lt.mpr hmoved.fileChars_le)]

theorem lineBreak_eq_ok_iff {l : Layout} (h : 1 ≤ l.pos.line) (moved : Layout) :
    l.lineBreak config = .ok moved ↔
      moved = ⟨l.pos.nextLine, 0, addCount l.fileChars 1⟩ ∧ moved.Within config := by
  -- the next line is not the first one, so the limit counts for it
  have hnext : 2 ≤ addCount l.pos.line 1 := by
    unfold addCount countMax
    omega
  rw [lineBreak_eq]
  constructor
  · intro hok
    split_ifs at hok with hfile hlines
    cases hok
    exact ⟨rfl, le_of_lt hnext, le_max_of_le_left (not_lt.mp hlines), Nat.zero_le _,
      not_lt.mp hfile⟩
  · rintro ⟨rfl, hmoved⟩
    have hlines : addCount l.pos.line 1 ≤ max config.limits.maxLines 1 := hmoved.line_le
    rw [if_neg (not_lt.mpr hmoved.fileChars_le), if_neg (by omega)]

/-- A move is made exactly if it leads beyond no limit. -/
theorem Within.step_eq_ok_iff {l : Layout} (h : l.Within config) (move : Move) (moved : Layout) :
    l.step config move = .ok moved ↔ moved = l.next config move ∧ moved.Within config := by
  cases move with
  | visible => exact h.visible_eq_ok_iff 1 moved
  | tab => exact h.visible_eq_ok_iff _ moved
  | lineBreak => exact lineBreak_eq_ok_iff h.line_pos moved
  | wideLineBreak =>
      rw [step, wideLineBreak_eq]
      by_cases hfile : config.limits.maxFileChars < addCount l.fileChars 1
      · rw [if_pos hfile]
        refine iff_of_false (fun hok => by cases hok) ?_
        rintro ⟨rfl, hmoved⟩
        have hle := hmoved.fileChars_le
        simp only [next, addCount] at hle hfile
        omega
      · have hline : 1 ≤ ({ l with fileChars := addCount l.fileChars 1 } : Layout).pos.line :=
          h.line_pos
        rw [if_neg hfile]
        exact lineBreak_eq_ok_iff hline moved

theorem forall_within_cons_iff {l : Layout} {move : Move} {moves : List Move} :
    (∀ first, first <+: move :: moves → (l.nextAll config first).Within config) ↔
      l.Within config ∧
        ∀ first, first <+: moves → ((l.next config move).nextAll config first).Within config := by
  simp only [List.prefix_cons_iff]
  constructor
  · intro h
    exact ⟨h [] (.inl rfl), fun first hfirst => h (move :: first) (.inr ⟨first, rfl, hfirst⟩)⟩
  · rintro ⟨hl, hrest⟩ first (rfl | ⟨rest, rfl, hstarts⟩)
    · exact hl
    · exact hrest rest hstarts

/-- Several moves are made exactly if none of them leads beyond a limit. -/
theorem Within.stepAll_eq_ok_iff {l : Layout} (h : l.Within config) (moves : List Move)
    (moved : Layout) :
    l.stepAll config moves = .ok moved ↔ moved = l.nextAll config moves ∧
      ∀ first, first <+: moves → (l.nextAll config first).Within config := by
  induction moves generalizing l with
  | nil => simp [h, eq_comm]
  | cons move moves ih =>
      rw [stepAll_cons, forall_within_cons_iff, nextAll_cons]
      cases hstep : l.step config move with
      | error e =>
          refine iff_of_false (fun hok => by cases hok) ?_
          rintro ⟨-, -, hwithin⟩
          have hnext := (h.step_eq_ok_iff move _).mpr ⟨rfl, hwithin [] List.nil_prefix⟩
          cases hstep.symm.trans hnext
      | ok after =>
          obtain ⟨rfl, hafter⟩ := (h.step_eq_ok_iff move after).mp hstep
          rw [and_iff_right h]
          exact ih hafter

theorem next_within (hlimits : config.limits = .unlimited) {l : Layout} (h : l.Within config)
    (move : Move) : (l.next config move).Within config := by
  obtain ⟨tabStop, limits⟩ := config
  obtain rfl : limits = .unlimited := hlimits
  have hcount : ∀ count, addCount count 1 ≤ countMax := fun count => min_le_right _ _
  have hline : 1 ≤ addCount l.pos.line 1 := by
    unfold addCount countMax
    omega
  cases move with
  | visible => exact ⟨h.line_pos, h.line_le, hcount _, hcount _⟩
  | tab => exact ⟨h.line_pos, h.line_le, hcount _, hcount _⟩
  | lineBreak => exact ⟨hline, le_max_of_le_left (hcount _), Nat.zero_le _, hcount _⟩
  | wideLineBreak => exact ⟨hline, le_max_of_le_left (hcount _), Nat.zero_le _, hcount _⟩

/-- Without limits every move is made. -/
theorem Within.stepAll_unlimited (hlimits : config.limits = .unlimited) {l : Layout}
    (h : l.Within config) (moves : List Move) :
    l.stepAll config moves = .ok (l.nextAll config moves) := by
  induction moves generalizing l with
  | nil => rfl
  | cons move moves ih =>
      have hnext := next_within hlimits h move
      rw [stepAll_cons, (h.step_eq_ok_iff move _).mpr ⟨rfl, hnext⟩]
      exact ih hnext

theorem Within.of_stepAll {l moved : Layout} (h : l.Within config) {moves : List Move}
    (hmoved : l.stepAll config moves = .ok moved) :
    moved = l.nextAll config moves ∧ moved.Within config := by
  obtain ⟨rfl, hwithin⟩ := (h.stepAll_eq_ok_iff moves moved).mp hmoved
  exact ⟨rfl, hwithin moves List.prefix_rfl⟩

end Layout

end FrontEnd
