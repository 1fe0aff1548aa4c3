import FrontEnd.Lexical.Layout
import Mathlib.Tactic.SplitIfs

/-! # Layout without limits

Without limits a layout moves over every text, to a position that depends on the text and the
position before it alone. -/

namespace FrontEnd

/-- Limits that no count goes beyond. -/
def LayoutLimits.unlimited : LayoutLimits := ⟨countMax, countMax, countMax⟩

namespace Position

/-- The start of the next line. -/
def nextLine (pos : Position) : Position := ⟨addCount pos.line 1, 1⟩

def right (pos : Position) (columns : Nat) : Position := ⟨pos.line, addCount pos.column columns⟩

/-- The position after a byte that is not the first of a line end of two. -/
def past (config : LayoutConfig) (pos : Position) (byte : UInt8) : Position :=
  if byte = 0x0A ∨ byte = 0x0D then pos.nextLine
  else if byte = 0x09 then pos.right (Layout.tabColumns config pos.column)
  else if Utf8.isContinuation byte then pos
  else pos.right 1

/-- Where a text ends that starts at a position. -/
def across (config : LayoutConfig) (pos : Position) : List UInt8 → Position
  | [] => pos
  | 0x0D :: 0x0A :: rest => pos.nextLine.across config rest
  | byte :: rest => (pos.past config byte).across config rest

/-! ## Positions on later lines -/

/-- The position so many lines below another. -/
def below (pos : Position) (lines : Nat) : Position := ⟨addCount lines pos.line, pos.column⟩

theorem below_eq (pos : Position) {lines : Nat} (h : lines + pos.line ≤ countMax) :
    pos.below lines = ⟨lines + pos.line, pos.column⟩ := by
  rw [below, addCount, Nat.min_eq_left h]

theorem nextLine_below (pos : Position) (lines : Nat) :
    (pos.below lines).nextLine = pos.nextLine.below lines := by
  simp only [nextLine, below, addCount, Position.mk.injEq, and_true]
  omega

theorem past_below (config : LayoutConfig) (pos : Position) (lines : Nat) (byte : UInt8) :
    (pos.below lines).past config byte = (pos.past config byte).below lines := by
  simp only [past, nextLine_below]
  split_ifs <;> rfl

/-- Where a text starts further down, it ends further down. -/
theorem across_below (config : LayoutConfig) (pos : Position) (lines : Nat) (text : List UInt8) :
    (pos.below lines).across config text = (pos.across config text).below lines := by
  fun_induction across config pos text with
  | case1 pos => rw [across]
  | case2 pos rest ih => rw [across, nextLine_below, ih]
  | case3 pos byte rest hwide ih =>
      rw [across, past_below, ih]
      exact hwide

theorem line_past_le (config : LayoutConfig) (pos : Position) (byte : UInt8) :
    (pos.past config byte).line ≤ pos.line + 1 := by
  unfold past
  split_ifs
  · simp only [nextLine, addCount]
    omega
  · exact Nat.le_succ _
  · exact Nat.le_succ _
  · exact Nat.le_succ _

/-- A text takes no more lines than bytes. -/
theorem line_across_le (config : LayoutConfig) (pos : Position) (text : List UInt8) :
    (pos.across config text).line ≤ pos.line + text.length := by
  fun_induction across config pos text with
  | case1 pos => exact Nat.le_refl _
  | case2 pos rest ih =>
      simp only [nextLine, addCount, List.length_cons] at ih ⊢
      omega
  | case3 pos byte rest hwide ih =>
      have hpast := line_past_le config pos byte
      rw [List.length_cons]
      omega

end Position

/-! ## Layouts at positions -/

namespace Layout

variable {config : LayoutConfig} (hlimits : config.limits = .unlimited)

include hlimits

theorem countInFile_eq (l : Layout) :
    l.countInFile config = .ok { l with fileChars := addCount l.fileChars 1 } := by
  refine if_neg ?_
  rw [hlimits]
  exact Nat.not_lt.mpr (Nat.min_le_right _ _)

theorem visible_pos (columns : Nat) (l : Layout) :
    ∃ moved, l.visible config columns = .ok moved ∧ moved.pos = l.pos.right columns := by
  have hcount : ¬ config.limits.maxLineChars < addCount l.lineChars 1 := by
    rw [hlimits]
    exact Nat.not_lt.mpr (Nat.min_le_right _ _)
  refine ⟨⟨l.pos.right columns, addCount l.lineChars 1, addCount l.fileChars 1⟩, ?_, rfl⟩
  rw [visible, countInLine, if_neg hcount, countInFile_eq hlimits]
  rfl

theorem lineBreak_pos (l : Layout) :
    ∃ moved, l.lineBreak config = .ok moved ∧ moved.pos = l.pos.nextLine := by
  have hline : ¬ config.limits.maxLines < addCount l.pos.line 1 := by
    rw [hlimits]
    exact Nat.not_lt.mpr (Nat.min_le_right _ _)
  refine ⟨⟨l.pos.nextLine, 0, addCount l.fileChars 1⟩, ?_, rfl⟩
  rw [lineBreak, countInFile_eq hlimits]
  exact if_neg hline

theorem wideLineBreak_pos (l : Layout) :
    ∃ moved, l.wideLineBreak config = .ok moved ∧ moved.pos = l.pos.nextLine := by
  rw [wideLineBreak, countInFile_eq hlimits]
  exact lineBreak_pos hlimits { l with fileChars := addCount l.fileChars 1 }

theorem past_pos (l : Layout) (byte : UInt8) : ∃ moved,
    (if byte = 0x0A ∨ byte = 0x0D then l.lineBreak config
      else if byte = 0x09 then l.tab config
      else if Utf8.isContinuation byte then .ok l
      else l.visible config 1) = .ok moved ∧ moved.pos = l.pos.past config byte := by
  unfold Position.past
  split_ifs
  · exact lineBreak_pos hlimits l
  · exact visible_pos hlimits _ l
  · exact ⟨l, rfl, rfl⟩
  · exact visible_pos hlimits 1 l

/-- Without limits every text is moved over. -/
theorem across_pos (l : Layout) (text : List UInt8) :
    ∃ moved, l.across config text = .ok moved ∧ moved.pos = l.pos.across config text := by
  fun_induction across config l text with
  | case1 l => exact ⟨l, rfl, rfl⟩
  | case2 l rest e hbreak =>
      obtain ⟨moved, hmoved, -⟩ := wideLineBreak_pos hlimits l
      rw [hmoved] at hbreak
      cases hbreak
  | case3 l rest next hbreak ih =>
      obtain ⟨moved, hmoved, hpos⟩ := wideLineBreak_pos hlimits l
      rw [hmoved] at hbreak
      cases hbreak
      rwa [Position.across, ← hpos]
  | case4 l byte rest _ moved e hmoved =>
      obtain ⟨next, hnext, -⟩ := past_pos hlimits l byte
      cases hmoved.symm.trans hnext
  | case5 l byte rest hwide moved next hmoved ih =>
      obtain ⟨next', hnext, hpos⟩ := past_pos hlimits l byte
      obtain rfl := Except.ok.inj (hmoved.symm.trans hnext)
      rwa [Position.across, ← hpos]
      exact hwide

end Layout

end FrontEnd
