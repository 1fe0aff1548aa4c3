import FrontEnd.Proofs.Scanner.Basic
import FrontEnd.Proofs.Scanner.Padding
import FrontEnd.Proofs.Lexical.Moves
import Mathlib.Data.List.GetD

/-! # Scanners inside of sources

A scanner in front of some bytes of a source sees just these bytes, with zeros behind them. Every
move leads from such a place to the next one, and the layout goes along. -/

namespace FrontEnd

open LexicalGrammar

namespace Layout

variable {config : LayoutConfig} {l : Layout}

theorem narrow_append {byte : UInt8} {rest second : List UInt8}
    (hwide : ∀ tail, byte = 0x0D → rest = 0x0A :: tail → False)
    (h : ¬ ((byte :: rest).getLast? = some 0x0D ∧ second.head? = some 0x0A)) :
    ¬ (byte = 0x0D ∧ (rest ++ second).head? = some 0x0A) := by
  rintro ⟨rfl, hhead⟩
  cases rest with
  | nil => exact h ⟨rfl, hhead⟩
  | cons next rest => exact hwide rest rfl (by simpa using hhead)

/-- A text is moved over in parts, unless a line end of two is split. -/
theorem across_append {first second : List UInt8}
    (h : ¬ (first.getLast? = some 0x0D ∧ second.head? = some 0x0A)) :
    l.across config (first ++ second) = (l.across config first).bind (across config · second) := by
  fun_induction across config l first with
  | case1 l => rfl
  | case2 l rest e hwide => simp [across_wide, hwide, Except.bind]
  | case3 l rest moved hwide ih =>
      have hrest : ¬ (rest.getLast? = some 0x0D ∧ second.head? = some 0x0A) := fun hsplit =>
        h ⟨by simp [List.getLast?_cons, hsplit.1], hsplit.2⟩
      simpa [across_wide, hwide, Except.bind] using ih hrest
  | case4 l byte rest hwide moved e hmoved =>
      rw [List.cons_append, across_cons (narrow_append hwide h)]
      change moved.bind _ = _
      rw [hmoved]
      rfl
  | case5 l byte rest hwide moved next hmoved ih =>
      have hrest : ¬ (rest.getLast? = some 0x0D ∧ second.head? = some 0x0A) := fun hsplit =>
        h ⟨by simp [List.getLast?_cons, hsplit.1], hsplit.2⟩
      rw [List.cons_append, across_cons (narrow_append hwide h)]
      change moved.bind _ = _
      rw [hmoved]
      exact ih hrest

end Layout

namespace Scanner

@[simp] theorem ok_bind {α β : Type} (a : α) (f : α → Except Halt β) :
    (Except.ok a >>= f) = f a := rfl

@[simp] theorem error_bind {α β : Type} (halt : Halt) (f : α → Except Halt β) :
    (Except.error halt >>= f) = .error halt := rfl

@[simp] theorem pure_eq {α : Type} (a : α) : (pure a : Except Halt α) = .ok a := rfl

/-- A scanner after some bytes of a source and in front of the others. -/
def placed (before after : List UInt8) (l : Layout) : Scanner :=
  ⟨(ByteReader.ofSource ⟨before ++ after⟩).advance before.length, l⟩

variable {config : LayoutConfig} {before text after : List UInt8} {l : Layout}

@[simp] theorem layout_placed : (placed before after l).layout = l := rfl

@[simp] theorem pos_placed : (placed before after l).reader.pos = before.length :=
  Nat.zero_add _

@[simp] theorem size_placed :
    (placed before after l).reader.size = before.length + after.length := List.length_append

theorem size_padded_placed :
    (placed before after l).reader.padded.size = (PaddedSource.mk (before ++ after)).paddedSize :=
  PaddedSource.length_paddedBytes _

theorem padded_placed (before after : List UInt8) (l : Layout) :
    ∃ zeros, (placed before after l).reader.padded.toList =
      before ++ after ++ List.replicate zeros 0 := ⟨_, rfl⟩

@[simp] theorem left_placed : (placed before after l).left = after.length := by
  simp [left]

@[simp] theorem isAtEnd_placed : (placed before after l).reader.isAtEnd = after.isEmpty := by
  cases after <;> simp [ByteReader.isAtEnd]

theorem ahead_placed (distance : Nat) :
    (placed before after l).reader.ahead distance = after.getD distance 0 := by
  obtain ⟨zeros, hpadded⟩ := padded_placed before after l
  rw [ByteReader.ahead, pos_placed, Array.getD_eq_getD_getElem?, ← Array.getElem?_toList, hpadded,
    List.append_assoc, List.getElem?_append_right (Nat.le_add_right _ _), Nat.add_sub_cancel_left,
    ← List.getD_eq_getElem?_getD]
  by_cases hinside : distance < after.length
  · rw [List.getD_append _ _ _ _ hinside]
  · rw [List.getD_append_right _ _ _ _ (not_lt.mp hinside), List.getD_eq_getElem?_getD,
      List.getElem?_getD_replicate_default_eq, List.getD_eq_default _ _ (not_lt.mp hinside)]

/-- A scanner may look at three bytes and the one that it is at. -/
theorem look_placed {distance : Nat} (h : distance ≤ 3) :
    (placed before after l).look distance = .ok (after.getD distance 0) := by
  have hroom := (PaddedSource.mk (before ++ after)).endPadding_le
  have hsize : (PaddedSource.mk (before ++ after)).size = before.length + after.length :=
    List.length_append
  have hinside : ¬ (placed before after l).reader.padded.size ≤ before.length + distance := by
    rw [size_padded_placed]
    unfold PaddedSource.endPadding at hroom
    omega
  have hmarked : ¬ (before.length + after.length ≤ before.length + distance ∧
      after.getD distance 0 ≠ 0) := fun hbyte =>
    hbyte.2 (List.getD_eq_default _ _ (by omega))
  simp only [look, pos_placed, size_placed, ahead_placed]
  rw [if_neg hinside, if_neg hmarked]

/-- Zeros behind the end are no marks. -/
theorem getD_eq_mark_iff {bytes : List UInt8} {mark : UInt8} (hmark : mark ≠ 0) :
    bytes.getD 0 0 = mark ↔ bytes.head? = some mark := by
  cases bytes with
  | nil => simpa using hmark.symm
  | cons byte rest => simp

theorem rest_placed : (placed before after l).rest = .ok after := by
  obtain ⟨zeros, hpadded⟩ := padded_placed before after l
  have hroom := (PaddedSource.mk (before ++ after)).endPadding_le
  have hsize : (PaddedSource.mk (before ++ after)).size = before.length + after.length :=
    List.length_append
  rw [rest, if_pos ?_, ByteReader.rest, Array.toList_extract, hpadded]
  · simp
  · rw [size_padded_placed, size_placed, pos_placed]
    omega

theorem since_placed : (placed (before ++ text) after l).since before.length = .ok text := by
  obtain ⟨zeros, hpadded⟩ := padded_placed (before ++ text) after l
  have hroom := (PaddedSource.mk (before ++ text ++ after)).endPadding_le
  have hsize : (PaddedSource.mk (before ++ text ++ after)).size =
      (before ++ text).length + after.length := List.length_append
  rw [List.length_append] at hsize
  rw [since, if_pos ?_, ByteReader.since, Array.toList_extract, hpadded]
  · simp
  · rw [size_padded_placed, pos_placed, List.length_append]
    omega

theorem advance_placed (text : List UInt8) :
    (placed before (text ++ after) l).advance text.length =
      .ok (placed (before ++ text) after l) := by
  rw [advance, if_neg (by simp)]
  simp [placed, ByteReader.ofSource, ByteReader.advance, PaddedSource.size]

theorem advance_one {byte : UInt8} :
    (placed before (byte :: after) l).advance 1 = .ok (placed (before ++ [byte]) after l) :=
  advance_placed [byte]

theorem decode_placed : (placed before after l).decode =
    match Utf8.decode after with
    | some decoded => .ok decoded
    | none => .error (.error ⟨.badEncoding, l.pos⟩) := by
  rw [Scanner.decode, rest_placed]
  cases hdecode : Utf8.decode after <;> simp [hdecode, fail]

/-! ## Scanned texts -/

/-- What comes of moving over a text, with its characters laid out. -/
def scanned (config : LayoutConfig) (before text after : List UInt8) (l : Layout) :
    Except Halt Scanner :=
  (placed (before ++ text) after l).lay (·.across config text)

theorem lay_placed (move : Layout → Except LexicalError Layout) :
    (placed before after l).lay move =
      match move l with
      | .error e => .error (.error e)
      | .ok moved => .ok (placed before after moved) := rfl

theorem scanned_nil : scanned config before [] after l = .ok (placed before after l) := by
  rw [scanned, List.append_nil]
  rfl

theorem scanned_cases (config : LayoutConfig) (before text after : List UInt8) (l : Layout) :
    (∃ e, l.across config text = .error e ∧
      scanned config before text after l = .error (.error e)) ∨
    ∃ moved, l.across config text = .ok moved ∧
      scanned config before text after l = .ok (placed (before ++ text) after moved) := by
  rw [scanned, lay_placed]
  cases l.across config text with
  | error e => exact .inl ⟨e, rfl, rfl⟩
  | ok moved => exact .inr ⟨moved, rfl, rfl⟩

theorem bind_scanned_congr {α : Type} {first second : Scanner → Except Halt α}
    (h : ∀ moved, first (placed (before ++ text) after moved) =
      second (placed (before ++ text) after moved)) :
    (scanned config before text after l >>= first) =
      scanned config before text after l >>= second := by
  obtain ⟨e, -, hscanned⟩ | ⟨moved, -, hscanned⟩ := scanned_cases config before text after l
  · rw [hscanned]
    rfl
  · rw [hscanned]
    exact h moved

/-- What follows a text may move over more of the source. -/
theorem bind_scanned {α : Type} {more : List UInt8} {first second : Scanner → Except Halt α}
    (hsplit : ¬ (text.getLast? = some 0x0D ∧ more.head? = some 0x0A))
    (h : ∀ moved, first (placed (before ++ text) (more ++ after) moved) =
      scanned config (before ++ text) more after moved >>= second) :
    (scanned config before text (more ++ after) l >>= first) =
      scanned config before (text ++ more) after l >>= second := by
  rw [scanned, scanned, lay_placed, lay_placed, Layout.across_append hsplit]
  cases l.across config text with
  | error e => rfl
  | ok moved =>
      refine (h moved).trans ?_
      rw [scanned, lay_placed, List.append_assoc]
      rfl

/-! ## Characters -/

/-- A byte that is a character of one column. -/
def IsPlain (byte : UInt8) : Prop :=
  byte ≠ 0x0A ∧ byte ≠ 0x0D ∧ byte ≠ 0x09 ∧ Utf8.isContinuation byte = false

instance (byte : UInt8) : Decidable (IsPlain byte) :=
  inferInstanceAs (Decidable (_ ∧ _ ∧ _ ∧ _))

/-- No line end is split behind such a byte. -/
theorem IsPlain.unsplit {last : UInt8} (h : IsPlain last) {more : List UInt8}
    (hlast : text.getLast? = some last) :
    ¬ (text.getLast? = some 0x0D ∧ more.head? = some 0x0A) := fun hsplit =>
  h.2.1 (Option.some.inj (hlast.symm.trans hsplit.1))

theorem across_plain {byte : UInt8} (h : IsPlain byte) :
    l.across config [byte] = l.visible config 1 := by
  obtain ⟨hfeed, hreturn, htab, hfollowing⟩ := h
  rw [Layout.across_cons (fun hwide => hreturn hwide.1), if_neg (by simp [hfeed, hreturn]),
    if_neg htab, if_neg (by simp [hfollowing])]
  cases l.visible config 1 <;> rfl

theorem bump_placed {byte : UInt8} (h : IsPlain byte) :
    (placed before (byte :: after) l).bump config = scanned config before [byte] after l := by
  simp [bump, advance_one, scanned, lay_placed, across_plain h]

/-- Bytes that are characters are moved over one by one. -/
theorem bumps_placed (text : List UInt8) (h : ∀ byte ∈ text, IsPlain byte) :
    (placed before (text ++ after) l).bumps config text.length =
      scanned config before text after l := by
  induction text generalizing before l with
  | nil => exact scanned_nil.symm
  | cons byte text ih =>
      obtain ⟨hbyte, htext⟩ := List.forall_mem_cons.mp h
      have hrest : (scanned config before [byte] (text ++ after) l >>= fun s =>
          s.bumps config text.length) = scanned config before ([byte] ++ text) after l >>= pure :=
        bind_scanned (hbyte.unsplit rfl) fun moved => by rw [ih htext, bind_pure]
      rw [List.cons_append, List.length_cons, bumps, bump_placed hbyte, hrest, bind_pure]
      rfl

theorem bumps_pair {first second : UInt8} (hfirst : IsPlain first) (hsecond : IsPlain second) :
    (placed before ([first, second] ++ after) l).bumps config 2 =
      scanned config before [first, second] after l :=
  bumps_placed [first, second] (by simp [hfirst, hsecond])

/-! ## Rounds of a loop -/

section Loop

variable {α β : Type} {round : Scanner → α → Except Halt (Progress α β)} {s t : Scanner}
  {state later : α}

theorem loop_of_error {halt : Halt} (h : round s state = .error halt) :
    loop round s state = .error halt := by
  rw [loop, h]

theorem loop_of_stop {result : β} (h : round s state = .ok (.stop t result)) :
    loop round s state = .ok (t, result) := by
  rw [loop, h]

theorem loop_of_next (h : round s state = .ok (.next t later)) (hleft : t.left < s.left) :
    loop round s state = loop round t later := by
  rw [loop, h]
  exact if_pos hleft

/-- A round that moves over a text goes on after it. -/
theorem loop_of_scanned (htext : text ≠ [])
    (h : round (placed before (text ++ after) l) state =
      scanned config before text after l >>= fun t => .ok (.next t later)) :
    loop round (placed before (text ++ after) l) state =
      scanned config before text after l >>= fun t => loop round t later := by
  obtain ⟨e, -, hscanned⟩ | ⟨moved, -, hscanned⟩ := scanned_cases config before text after l
  · rw [hscanned] at h ⊢
    exact loop_of_error h
  · rw [hscanned] at h ⊢
    have hpos := List.length_pos_iff.mpr htext
    refine loop_of_next h ?_
    rw [left_placed, left_placed, List.length_append]
    omega

end Loop

/-- The states that a loop comes to, round by round. -/
inductive Visits {α β : Type} (round : Scanner → α → Except Halt (Progress α β)) :
    Scanner → α → Scanner → α → Prop where
  | here (s state) : Visits round s state s state
  | next {s t u state later last} : round s state = .ok (.next t later) →
      Visits round t later u last → Visits round s state u last

/-- A round that moves over a text leads behind it. -/
theorem placed_of_next {α β : Type} {next state : α} {t : Scanner}
    (h : (scanned config before text after l >>= fun t => .ok (Progress.next t next)) =
      .ok (Progress.next (β := β) t state)) :
    state = next ∧ ∃ moved, t = placed (before ++ text) after moved := by
  obtain ⟨e, -, hscanned⟩ | ⟨moved, -, hscanned⟩ := scanned_cases config before text after l
  · rw [hscanned] at h
    cases h
  · rw [hscanned] at h
    cases h
    exact ⟨rfl, moved, rfl⟩

end Scanner

end FrontEnd
