import FrontEnd.Proofs.Scanner.Placed
import FrontEnd.Proofs.Lexical.Rendering

/-! # Words are scanned to their end

A scanner takes words as the reader of pieces cuts them, and the digits of numbers as the reader of
numbers takes them, with the same faults. -/

namespace FrontEnd.Scanner

open LexicalGrammar

variable {config : LayoutConfig} {before word after : List UInt8} {l : Layout}

theorem IsGraphic.isPlain {byte : UInt8} (h : IsGraphic byte) : IsPlain byte := by
  obtain ⟨hlow, hhigh⟩ := h
  have hmark : ∀ mark : UInt8, mark.toNat ≤ 0x20 → byte ≠ mark := by
    rintro mark hmark rfl
    omega
  refine ⟨hmark 0x0A (by decide), hmark 0x0D (by decide), hmark 0x09 (by decide), ?_⟩
  rw [Bool.eq_false_iff, ne_eq, Utf8.isContinuation_iff]
  omega

theorem isPlain_of_isWordByte {byte : UInt8} (h : isWordByte byte = true) : IsPlain byte :=
  IsGraphic.isPlain ((inWord_iff byte).mpr h).isGraphic

/-- A scanner behind a word looks at no byte of a word. -/
theorem isWordByte_getD (hafter : ∀ byte ∈ after.head?, isWordByte byte = false) :
    isWordByte (after.getD 0 0) = false := by
  cases after with
  | nil => rfl
  | cons byte rest => exact hafter byte rfl

/-! ## Identifiers and keywords -/

theorem loop_word (hword : ∀ byte ∈ word, isWordByte byte = true)
    (hafter : ∀ byte ∈ after.head?, isWordByte byte = false) :
    loop (wordRound config) (placed before (word ++ after) l) () =
      scanned config before word after l >>= fun t => .ok (t, ()) := by
  induction word generalizing before l with
  | nil =>
      rw [scanned_nil, List.nil_append, ok_bind]
      refine loop_of_stop ?_
      rw [wordRound, look_placed (Nat.zero_le 3), ok_bind, isWordByte_getD hafter]
      rfl
  | cons byte word ih =>
      obtain ⟨hbyte, hrest⟩ := List.forall_mem_cons.mp hword
      have hplain := isPlain_of_isWordByte hbyte
      have hround : wordRound config (placed before ([byte] ++ (word ++ after)) l) () =
          scanned config before [byte] (word ++ after) l >>= fun t => .ok (.next t ()) := by
        rw [wordRound, look_placed (Nat.zero_le 3), ok_bind]
        refine (if_pos hbyte).trans ?_
        rw [List.singleton_append, bump_placed hplain]
        rfl
      refine (loop_of_scanned (List.cons_ne_nil _ _) hround).trans
        (bind_scanned (hplain.unsplit rfl) fun moved => ih hrest)

theorem word_placed (hword : ∀ byte ∈ word, isWordByte byte = true)
    (hafter : ∀ byte ∈ after.head?, isWordByte byte = false) :
    (placed before (word ++ after) l).word config =
      scanned config before word after l >>= fun t =>
        .ok (t, .ofWord (Number.asciiText word)) := by
  have hsmall : (word.all fun byte => byte < 0x80) = true := by
    rw [List.all_eq_true]
    intro byte hbyte
    have hascii := InWord.toNat_lt ((inWord_iff byte).mpr (hword byte hbyte))
    simpa [UInt8.lt_iff_toNat_lt] using hascii
  rw [Scanner.word, loop_word hword hafter]
  obtain ⟨e, -, hscanned⟩ | ⟨moved, -, hscanned⟩ := scanned_cases config before word after l
  · rw [hscanned]
    rfl
  · rw [hscanned]
    simp only [ok_bind, pos_placed, since_placed, if_pos hsmall, pure_eq]

/-! ## Digits -/

section Digits

variable {radix : Nat} {start : Position} {byte : UInt8} {state later : DigitState}

theorem isWordByte_of_digit (h : (Number.digit? radix byte).isSome = true) :
    isWordByte byte = true := by
  obtain ⟨value, hvalue⟩ := Option.isSome_iff_exists.mp h
  exact (inWord_iff byte).mp (Number.digit?_eq_some_iff.mp hvalue).inWord

/-- A byte of a number is moved over. -/
theorem digits_of_round (hbyte : isWordByte byte = true)
    (h : digitRound config radix start (placed before (byte :: after) l) state =
      (placed before (byte :: after) l).bump config >>= fun t => .ok (.next t later)) :
    (placed before (byte :: after) l).digits config radix start state =
      scanned config before [byte] after l >>= fun t => t.digits config radix start later := by
  rw [bump_placed (isPlain_of_isWordByte hbyte)] at h
  have hloop := loop_of_scanned (List.cons_ne_nil byte []) h
  rw [List.singleton_append] at hloop
  rw [Scanner.digits, hloop, bind_assoc]
  rfl

theorem digits_separator (hbyte : byte = 0x5F) {digits : List UInt8} :
    (placed before (byte :: after) l).digits config radix start ⟨false, digits⟩ =
      scanned config before [byte] after l >>= fun t =>
        t.digits config radix start ⟨true, digits⟩ := by
  refine digits_of_round (by rw [hbyte]; rfl) ?_
  rw [digitRound, look_placed (Nat.zero_le 3), ok_bind]
  exact if_pos hbyte

theorem digits_digit (hseparator : byte ≠ 0x5F)
    (hdigit : (Number.digit? radix byte).isSome = true) :
    (placed before (byte :: after) l).digits config radix start state =
      scanned config before [byte] after l >>= fun t =>
        t.digits config radix start ⟨false, byte :: state.digits⟩ := by
  refine digits_of_round (isWordByte_of_digit hdigit) ?_
  rw [digitRound, look_placed (Nat.zero_le 3), ok_bind]
  exact (if_neg hseparator).trans (if_pos hdigit)

theorem digits_of_error (h : digitRound config radix start (placed before after l) state =
      .error (.error ⟨.badIntLiteral, start⟩)) :
    (placed before after l).digits config radix start state =
      .error (.error ⟨.badIntLiteral, start⟩) := by
  rw [Scanner.digits, loop_of_error h]
  rfl

theorem digits_stop (hafter : ∀ byte ∈ after.head?, isWordByte byte = false) :
    (placed before after l).digits config radix start state =
      if state.afterSeparator then .error (.error ⟨.badIntLiteral, start⟩)
      else .ok (placed before after l,
        .ofInt (Number.valueOfDigits radix state.digits.reverse)) := by
  have hbyte := isWordByte_getD hafter
  have hseparator : after.getD 0 0 ≠ 0x5F := fun h => by
    rw [h] at hbyte
    cases hbyte
  have hdigit : ¬ (Number.digit? radix (after.getD 0 0)).isSome = true := fun h => by
    rw [isWordByte_of_digit h] at hbyte
    cases hbyte
  have hround : digitRound config radix start (placed before after l) state =
      .ok (.stop (placed before after l) state) := by
    rw [digitRound, look_placed (Nat.zero_le 3), ok_bind]
    refine (if_neg hseparator).trans ((if_neg hdigit).trans (if_neg ?_))
    rw [hbyte]
    exact Bool.false_ne_true
  rw [Scanner.digits, loop_of_stop hround]
  rfl

/-- The digits of a word are read to their end. -/
theorem digits_of_ok (hword : ∀ byte ∈ word, isWordByte byte = true)
    (hafter : ∀ byte ∈ after.head?, isWordByte byte = false) {separated : Bool} {read : Nat}
    {digits value : List UInt8}
    (h : Number.digitsFrom radix (!separated) read digits word = .ok value) :
    (placed before (word ++ after) l).digits config radix start ⟨separated, digits⟩ =
      scanned config before word after l >>= fun t =>
        .ok (t, .ofInt (Number.valueOfDigits radix value)) := by
  induction word generalizing before l separated read digits with
  | nil =>
      rw [scanned_nil, List.nil_append, digits_stop hafter, ok_bind]
      cases separated with
      | false =>
          cases h
          rfl
      | true => cases h
  | cons byte word ih =>
      obtain ⟨hbyte, hrest⟩ := List.forall_mem_cons.mp hword
      have hplain := isPlain_of_isWordByte hbyte
      rw [Number.digitsFrom] at h
      split_ifs at h with hseparator hafterDigit hdigit
      · obtain rfl : separated = false := by simpa using hafterDigit
        exact (digits_separator hseparator).trans
          (bind_scanned (hplain.unsplit rfl) fun moved => ih hrest h)
      · exact (digits_digit hseparator hdigit).trans
          (bind_scanned (hplain.unsplit rfl) fun moved => ih hrest h)

/-- The digits of a word are moved over up to the byte at a place, which is at fault. -/
def FaultsAt (config : LayoutConfig) (radix : Nat) (start : Position) (after : List UInt8)
    (read stop : Nat) (word : List UInt8) (state : DigitState) : Prop :=
  ∃ text more, word = text ++ more ∧ stop = read + text.length ∧ ∀ before l,
    (placed before (word ++ after) l).digits config radix start state =
      scanned config before text (more ++ after) l >>= fun _ =>
        .error (.error ⟨.badIntLiteral, start⟩)

variable {read stop : Nat}

theorem FaultsAt.here (h : ∀ before l, digitRound config radix start
    (placed before (word ++ after) l) state = .error (.error ⟨.badIntLiteral, start⟩)) :
    FaultsAt config radix start after read read word state := by
  refine ⟨[], word, rfl, rfl, fun before l => ?_⟩
  rw [scanned_nil, ok_bind]
  exact digits_of_error (h before l)

theorem FaultsAt.next (hbyte : isWordByte byte = true)
    (hmoved : ∀ before l,
      (placed before (byte :: (word ++ after)) l).digits config radix start state =
        scanned config before [byte] (word ++ after) l >>= fun t =>
          t.digits config radix start later)
    (h : FaultsAt config radix start after (read + 1) stop word later) :
    FaultsAt config radix start after read stop (byte :: word) state := by
  obtain ⟨text, more, rfl, rfl, hdigits⟩ := h
  refine ⟨byte :: text, more, rfl, by rw [List.length_cons]; omega, fun before l => ?_⟩
  rw [List.cons_append, hmoved, List.append_assoc]
  refine bind_scanned ((isPlain_of_isWordByte hbyte).unsplit rfl) fun moved => ?_
  rw [← List.append_assoc]
  exact hdigits _ _

/-- The fault of a number is met where its reader meets it. -/
theorem digits_of_fault (hword : ∀ byte ∈ word, isWordByte byte = true)
    (hafter : ∀ byte ∈ after.head?, isWordByte byte = false) {separated : Bool}
    {digits : List UInt8}
    (h : Number.digitsFrom radix (!separated) read digits word = .error stop) :
    FaultsAt config radix start after read stop word ⟨separated, digits⟩ := by
  induction word generalizing separated read digits with
  | nil =>
      cases separated with
      | false => cases h
      | true =>
          cases h
          refine ⟨[], [], rfl, rfl, fun before l => ?_⟩
          rw [scanned_nil, List.nil_append, digits_stop hafter, ok_bind]
          rfl
  | cons byte word ih =>
      obtain ⟨hbyte, hrest⟩ := List.forall_mem_cons.mp hword
      rw [Number.digitsFrom] at h
      split_ifs at h with hseparator hafterDigit hdigit
      · obtain rfl : separated = false := by simpa using hafterDigit
        exact .next hbyte (fun before l => digits_separator hseparator) (ih hrest h)
      · obtain rfl : separated = true := by simpa using hafterDigit
        cases h
        refine .here fun before l => ?_
        rw [digitRound, List.cons_append, look_placed (Nat.zero_le 3), ok_bind]
        exact if_pos hseparator
      · exact .next hbyte (fun before l => digits_digit hseparator hdigit) (ih hrest h)
      · cases h
        refine .here fun before l => ?_
        rw [digitRound, List.cons_append, look_placed (Nat.zero_le 3), ok_bind]
        exact (if_neg hseparator).trans ((if_neg hdigit).trans (if_pos hbyte))

end Digits

/-! ## Numbers -/

theorem not_digit_separator (radix : Nat) : (Number.digit? radix 0x5F).isSome = false := by
  rw [Bool.eq_false_iff, ne_eq, Option.isSome_iff_exists]
  rintro ⟨value, hvalue⟩
  obtain ⟨-, hrange⟩ := (Number.digit?_eq_some _ _ _).mp hvalue
  simp at hrange

/-- A digit at the start of a word needs none before it. -/
theorem digitsFrom_of_digit {radix read : Nat} {byte : UInt8} {digits rest : List UInt8}
    (hdigit : (Number.digit? radix byte).isSome = true) :
    Number.digitsFrom radix false read digits (byte :: rest) =
      Number.digitsFrom radix true read digits (byte :: rest) := by
  have hseparator : byte ≠ 0x5F := by
    rintro rfl
    rw [not_digit_separator] at hdigit
    cases hdigit
  rw [Number.digitsFrom, Number.digitsFrom, if_neg hseparator, if_neg hseparator]

/-- What a scanner makes of a word that a reader of numbers reads. -/
def numberResult (config : LayoutConfig) (before word after : List UInt8) (l : Layout)
    (start : Position) : Except ReadFault (IntegerValue String) → Except Halt (Scanner × Lexeme)
  | .ok value => scanned config before word after l >>= fun t => .ok (t, .ofInt value)
  | .error fault =>
    scanned config before ((word ++ after).take fault.read) ((word ++ after).drop fault.read) l >>=
      fun _ => .error (.error ⟨fault.kind, start⟩)

theorem numberResult_append (text more : List UInt8) {fault : ReadFault} {start : Position}
    (hread : fault.read = text.length) :
    numberResult config before (text ++ more) after l start (.error fault) =
      scanned config before text (more ++ after) l >>= fun _ =>
        .error (.error ⟨fault.kind, start⟩) := by
  rw [numberResult, hread, List.append_assoc, List.take_left, List.drop_left]

section Numbers

variable (hword : ∀ byte ∈ word, isWordByte byte = true)
  (hafter : ∀ byte ∈ after.head?, isWordByte byte = false)

include hword hafter

theorem digits_placed {radix : Nat} {byte : UInt8} {rest : List UInt8} (hcons : word = byte :: rest)
    (hdigit : (Number.digit? radix byte).isSome = true) (start : Position) :
    (placed before (word ++ after) l).digits config radix start {} =
      numberResult config before word after l start (Number.readDigits radix 0 word) := by
  have hfirst : Number.digitsFrom radix false 0 [] word =
      Number.digitsFrom radix (!false) 0 [] word := by
    rw [hcons]
    exact digitsFrom_of_digit hdigit
  rw [Number.readDigits]
  cases hdigits : Number.digitsFrom radix false 0 [] word with
  | ok digits =>
      rw [hfirst] at hdigits
      exact digits_of_ok hword hafter hdigits
  | error stop =>
      rw [hfirst] at hdigits
      obtain ⟨text, more, hsplit, hstop, hfault⟩ := digits_of_fault hword hafter hdigits
      rw [Nat.zero_add] at hstop
      have hresult : numberResult config before (text ++ more) after l start
          (.error ⟨stop, .badIntLiteral, .pieceStart⟩) = _ := numberResult_append text more hstop
      rw [← hsplit] at hresult
      exact (hfault before l).trans hresult.symm

theorem markedDigits_placed {radix : Nat} {zero mark : UInt8} {digits : List UInt8}
    (hdigits : word = zero :: mark :: digits) :
    (placed before (word ++ after) l).markedDigits config radix =
      numberResult config before word after l l.pos (Number.readDigits radix 2 digits) := by
  have hzero : IsPlain zero := isPlain_of_isWordByte (hword zero (by simp [hdigits]))
  have hmark : IsPlain mark := isPlain_of_isWordByte (hword mark (by simp [hdigits]))
  have hrest : ∀ byte ∈ digits, isWordByte byte = true := fun byte hbyte =>
    hword byte (by rw [hdigits]; simp [hbyte])
  subst hdigits
  change (bumps config (placed before ([zero, mark] ++ (digits ++ after)) l) 2 >>= _) = _
  rw [bumps_pair hzero hmark]
  have hlook : ∀ moved, (placed (before ++ [zero, mark]) (digits ++ after) moved).look 0 =
      .ok ((digits ++ after).getD 0 0) := fun moved => look_placed (Nat.zero_le 3)
  by_cases hdigit : (Number.digit? radix ((digits ++ after).getD 0 0)).isSome = true
  · cases digits with
    | nil =>
        have hword := isWordByte_of_digit hdigit
        rw [List.nil_append, isWordByte_getD hafter] at hword
        cases hword
    | cons byte rest =>
        have hfirst : Number.digitsFrom radix false 2 [] (byte :: rest) =
            Number.digitsFrom radix (!false) 2 [] (byte :: rest) := digitsFrom_of_digit hdigit
        rw [Number.readDigits]
        cases hdigits : Number.digitsFrom radix false 2 [] (byte :: rest) with
        | ok value =>
            rw [hfirst] at hdigits
            refine bind_scanned (hmark.unsplit rfl) fun moved => ?_
            rw [hlook, ok_bind, if_pos hdigit]
            exact digits_of_ok hrest hafter hdigits
        | error stop =>
            rw [hfirst] at hdigits
            obtain ⟨text, more, hcut, rfl, hfault⟩ := digits_of_fault hrest hafter hdigits
            have hread : 2 + text.length = (zero :: mark :: text).length := Nat.add_comm _ _
            have hresult : numberResult config before (zero :: mark :: text ++ more) after l l.pos
                (.error ⟨2 + text.length, .badIntLiteral, .pieceStart⟩) = _ :=
              numberResult_append (zero :: mark :: text) more hread
            rw [hcut, List.append_assoc] at hlook hdigit ⊢
            refine Eq.trans ?_ hresult.symm
            refine bind_scanned (hmark.unsplit rfl) fun moved => ?_
            rw [hlook, ok_bind, if_pos hdigit, ← List.append_assoc, ← hcut]
            exact hfault _ _
  · have hread : Number.readDigits radix 2 digits = .error ⟨2, .badIntLiteral, .pieceStart⟩ := by
      cases digits with
      | nil => rfl
      | cons byte rest =>
          have hbyte : ¬ (Number.digit? radix byte).isSome = true := hdigit
          rw [Number.readDigits, Number.digitsFrom, if_neg hbyte]
          simp
    have hresult : numberResult config before ([zero, mark] ++ digits) after l l.pos
        (.error ⟨2, .badIntLiteral, .pieceStart⟩) = _ := numberResult_append [zero, mark] digits rfl
    rw [hread]
    refine (bind_scanned_congr fun moved => ?_).trans hresult.symm
    rw [hlook, ok_bind, if_neg hdigit]
    rfl

/-- A word that starts with a digit is taken as its reader takes it. -/
theorem number_placed {byte : UInt8} {rest : List UInt8} (hcons : word = byte :: rest)
    (hdigit : Number.isDigit byte = true) :
    (placed before (word ++ after) l).number config =
      numberResult config before word after l l.pos (Number.read word) := by
  by_cases hzero : byte = 0x30
  · subst hzero hcons
    rw [Scanner.number, look_placed (Nat.zero_le 3), ok_bind, look_placed (by decide), ok_bind]
    refine (if_pos rfl).trans ?_
    cases rest with
    | nil =>
        have hmark := isWordByte_getD hafter
        have hradix : ∀ mark : UInt8, isWordByte mark = true → after.getD 0 0 ≠ mark := by
          rintro mark hword rfl
          rw [hmark] at hword
          cases hword
        refine (if_neg (not_or.mpr ⟨hradix 0x78 rfl, hradix 0x58 rfl⟩)).trans
          ((if_neg (not_or.mpr ⟨hradix 0x62 rfl, hradix 0x42 rfl⟩)).trans
            ((if_neg (Bool.eq_false_iff.mp hmark)).trans ?_))
        rw [List.singleton_append, bump_placed (by decide)]
        rfl
    | cons mark digits =>
        have hmark : isWordByte mark = true := hword mark (by simp)
        have hnext : (0x30 :: mark :: digits ++ after).getD 1 0 = mark := rfl
        rw [Number.read, hnext, if_pos hmark]
        split_ifs with hhexadecimal hbinary
        · exact markedDigits_placed hword hafter rfl
        · exact markedDigits_placed hword hafter rfl
        · refine Eq.trans ?_ (numberResult_append [] (0x30 :: mark :: digits) rfl).symm
          rw [scanned_nil, ok_bind]
          rfl
  · have hread : Number.read word = Number.readDigits 10 0 word := by
      subst hcons
      rw [Number.read]
      · exact fun h => hzero (List.cons.inj h).1
      · exact fun mark digits h => hzero (List.cons.inj h).1
    have hten : (Number.digit? 10 byte).isSome = true := by
      rw [Number.isDigit_iff] at hdigit
      exact Option.isSome_iff_exists.mpr
        ⟨byte.toNat - 48, (Number.digit?_eq_some 10 byte _).mpr (by omega)⟩
    subst hcons
    rw [Scanner.number, look_placed (Nat.zero_le 3), ok_bind, hread]
    exact (if_neg hzero).trans (digits_placed hword hafter rfl hten l.pos)

end Numbers

end FrontEnd.Scanner
