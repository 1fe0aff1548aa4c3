import FrontEnd.Proofs.Lexical.Limits
import FrontEnd.Proofs.Lexical.Lines

/-! # Lexemes are read as they are spelled

Lexemes that are spelled with spaces between them are read back, and only such lexemes are read. -/

namespace FrontEnd

variable {hash : String → UInt32}

open String (utf8EncodeChar)
open LexicalGrammar

/-! ## Spellings -/

/-- The mark in front of digits of a radix. -/
def IntegerValue.radixMark : Nat → List Char
  | 16 => ['0', 'x']
  | 2 => ['0', 'b']
  | _ => []

def IntegerValue.spelling : IntegerValue String → List Char
  | .small value => (toString value).toList
  | .oversized digits radix => radixMark radix ++ digits.toList

def Lexeme.spelling (lexeme : Lexeme) : List Char :=
  match lexeme.kind, lexeme.value with
  | .symbol s, _ => s.spelling.toList
  | .keyword k, _ => k.spelling.toList
  | _, .ident text => text.toList
  | _, .int value => value.spelling
  | _, .none => []

/-- A text that may name something, if it is no keyword. -/
def IsWordText (text : String) : Prop :=
  ∃ head tail, text.toList = head :: tail ∧ (head.isAlpha = true ∨ head = '_') ∧
    ∀ char ∈ tail, char.isAlphanum = true ∨ char = '_'

/-- A value beyond the small ones, as digits without a mark and separators. A decimal one has no
leading zero. -/
inductive IsOversized : (digits : String) → (radix : Nat) → Prop where
  | mk {radix bytes values} : radix = 10 ∨ radix = 16 ∨ radix = 2 →
      List.Forall₂ (IsDigit radix) bytes values →
      IntegerValue.smallMax < Nat.ofDigits radix values.reverse →
      (radix = 10 → bytes.head? ≠ some 0x30) → IsOversized (asText bytes) radix

/-- The lexemes that a source can have. -/
inductive Lexeme.Spellable : Lexeme → Prop where
  | symbol (s : Symbol) : Spellable ⟨.symbol s, .none⟩
  | keyword (k : Keyword) : Spellable ⟨.keyword k, .none⟩
  | identifier {text} : IsWordText text → (∀ k : Keyword, text ≠ k.spelling) →
      Spellable ⟨.identifier, .ident text⟩
  | small {value} : value ≤ IntegerValue.smallMax → Spellable ⟨.intLiteral, .int (.small value)⟩
  | oversized {digits radix} : IsOversized digits radix →
      Spellable ⟨.intLiteral, .int (.oversized digits radix)⟩

/-- Lexemes as a source, with a space between any two of them. -/
def rendering (lexemes : List Lexeme) : List Char :=
  [' '].intercalate (lexemes.map Lexeme.spelling)

/-- The lexemes of a rendering, each with the characters before it. -/
def renderedAfter (before : List Char) : List Lexeme → List (List Char × Lexeme)
  | [] => []
  | lexeme :: lexemes =>
    (before, lexeme) :: renderedAfter (before ++ lexeme.spelling ++ [' ']) lexemes

/-! ## Words -/

theorem toNat_lt_of_inWordText {char : Char} (h : char.isAlphanum = true ∨ char = '_') :
    char.toNat < 128 := by
  rcases h with h | rfl
  · delta Char.isAlphanum Char.isAlpha Char.isUpper Char.isLower Char.isDigit at h
    simp only [Bool.or_eq_true, Bool.and_eq_true, decide_eq_true_eq, UInt32.le_iff_toNat_le,
      ge_iff_le] at h
    change ((65 ≤ char.toNat ∧ char.toNat ≤ 90) ∨ (97 ≤ char.toNat ∧ char.toNat ≤ 122)) ∨
      (48 ≤ char.toNat ∧ char.toNat ≤ 57) at h
    omega
  · decide

/-- A word character is one byte of a word. -/
theorem inWord_of_inWordText {char : Char} (h : char.isAlphanum = true ∨ char = '_') :
    ∃ byte, utf8EncodeChar char = [byte] ∧ asChar byte = char ∧ InWord byte := by
  have hlt := toNat_lt_of_inWordText h
  have hchar : asChar (UInt8.ofNat char.toNat) = char := by
    rw [asChar, UInt8.toNat_ofNat', Nat.mod_eq_of_lt (by omega), Char.ofNat_toNat]
  refine ⟨_, Utf8.encode_ascii hlt, hchar, ?_⟩
  rcases h with h | rfl
  · exact .inl (by rwa [hchar])
  · exact .inr rfl

theorem encode_of_word {chars : List Char}
    (h : ∀ char ∈ chars, char.isAlphanum = true ∨ char = '_') :
    (encode chars).map asChar = chars ∧ ∀ byte ∈ encode chars, InWord byte := by
  induction chars with
  | nil => simp
  | cons char chars ih =>
      obtain ⟨hchar, hchars⟩ := List.forall_mem_cons.mp h
      obtain ⟨byte, hencode, hbyte, hword⟩ := inWord_of_inWordText hchar
      obtain ⟨hmap, hall⟩ := ih hchars
      rw [Comment.encode_cons, hencode, List.singleton_append, List.map_cons, hbyte, hmap]
      exact ⟨rfl, List.forall_mem_cons.mpr ⟨hword, hall⟩⟩

theorem isWordText_of_all {text : String} {head : Char} {tail : List Char}
    (htext : text.toList = head :: tail) (hhead : head.isAlpha = true ∨ head = '_')
    (htail : tail.all (fun char => char.isAlphanum || char == '_') = true) : IsWordText text := by
  refine ⟨head, tail, htext, hhead, fun char hchar => ?_⟩
  simpa using List.all_eq_true.mp htail char hchar

/-- The bytes of a word text are a word. -/
theorem IsWordText.encode {text : String} (h : IsWordText text) :
    ∃ head tail, encode text.toList = head :: tail ∧ IsWordHead head ∧
      (∀ byte ∈ encode text.toList, InWord byte) ∧ asText (encode text.toList) = text := by
  obtain ⟨first, rest, htext, hfirst, hrest⟩ := h
  have hword : ∀ char ∈ text.toList, char.isAlphanum = true ∨ char = '_' := by
    rw [htext]
    refine List.forall_mem_cons.mpr ⟨hfirst.imp_left fun halpha => ?_, hrest⟩
    rw [Char.isAlphanum, halpha, Bool.true_or]
  obtain ⟨hmap, hall⟩ := encode_of_word hword
  have hasText : asText (LexicalGrammar.encode text.toList) = text := by
    rw [asText, hmap, String.ofList_toList]
  have hmap' := hmap
  cases hbytes : LexicalGrammar.encode text.toList with
  | nil =>
      rw [hbytes, htext] at hmap
      cases hmap
  | cons head tail =>
      rw [hbytes, htext] at hmap
      obtain ⟨hhead, -⟩ := List.cons.inj hmap
      refine ⟨head, tail, rfl, ?_, by rwa [← hbytes], by rwa [← hbytes]⟩
      rcases hfirst with halpha | rfl
      · exact .inl (by rwa [hhead])
      · exact .inr (asChar_inj.mp hhead)

/-! ## Lexemes before spaces -/

/-- Nothing comes after a lexeme, or a space. -/
def AtSpace (after : List UInt8) : Prop := ∀ byte ∈ after.head?, byte = 0x20

theorem AtSpace.nil : AtSpace [] := fun _ hbyte => nomatch hbyte

theorem AtSpace.space (rest : List UInt8) : AtSpace (0x20 :: rest) :=
  fun _ hbyte => (Option.some.inj hbyte).symm

theorem AtSpace.isRun {text after : List UInt8} (h : AtSpace after)
    (htext : ∀ byte ∈ text, InWord byte) : IsRun text after := by
  refine ⟨htext, fun byte hbyte => ?_⟩
  rw [h byte hbyte, inWord_iff]
  decide

/-- A mark without spaces is in front of the space. -/
theorem AtSpace.prefix_of_prefix_append {mark text after : List UInt8} (h : AtSpace after)
    (hmark : 0x20 ∉ mark) (hstarts : mark <+: text ++ after) : mark <+: text := by
  induction text generalizing mark with
  | nil =>
      cases mark with
      | nil => exact List.nil_prefix
      | cons first mark =>
          obtain ⟨rest, rfl⟩ := hstarts
          exact absurd (List.mem_cons.mpr (.inl (h first rfl).symm)) hmark
  | cons byte text ih =>
      cases mark with
      | nil => exact List.nil_prefix
      | cons first mark =>
          obtain ⟨rfl, hrest⟩ := List.cons_prefix_cons.mp hstarts
          exact List.cons_prefix_cons.mpr ⟨rfl, ih (List.not_mem_of_not_mem_cons hmark) hrest⟩

theorem Symbol.encode_spelling (s : Symbol) : encode s.spelling.toList = s.bytes := by
  cases s <;> decide

theorem Symbol.isLexeme_of_atSpace (s : Symbol) {after : List UInt8} (h : AtSpace after) :
    IsLexeme (encode s.spelling.toList) after ⟨.symbol s, .none⟩ := by
  have hspace : ∀ s : Symbol, 0x20 ∉ s.bytes := fun s hmem =>
    absurd (s.isGraphic _ hmem).1 (by decide)
  have hcomment : ∀ s : Symbol, ¬ lineMark <+: s.bytes ∧ ¬ opening <+: s.bytes := by
    intro s
    cases s <;> decide
  rw [s.encode_spelling]
  refine .symbol s s.asText_bytes (fun hline => ?_) (fun hblock => ?_)
    fun other longer hother hlonger => ?_
  · exact (hcomment s).1 (h.prefix_of_prefix_append (by decide) hline)
  · exact (hcomment s).2 (h.prefix_of_prefix_append (by decide) hblock)
  · rw [Symbol.asText_eq_spelling_iff] at hother
    subst hother
    exact (h.prefix_of_prefix_append (hspace other) hlonger).length_le

theorem Keyword.isLexeme_of_atSpace (k : Keyword) {after : List UInt8} (h : AtSpace after) :
    IsLexeme (encode k.spelling.toList) after ⟨.keyword k, .none⟩ := by
  have hword : IsWordText k.spelling := by
    cases k <;> exact isWordText_of_all rfl (.inl (by decide)) (by decide)
  obtain ⟨head, tail, hbytes, hhead, hall, htext⟩ := hword.encode
  exact .keyword k hbytes hhead (h.isRun hall) htext

theorem isLexeme_identifier_of_atSpace {text : String} (htext : IsWordText text)
    (hkeyword : ∀ k : Keyword, text ≠ k.spelling) {after : List UInt8} (h : AtSpace after) :
    IsLexeme (encode text.toList) after ⟨.identifier, .ident text⟩ := by
  obtain ⟨head, tail, hbytes, hhead, hall, hasText⟩ := htext.encode
  have hlexeme := IsLexeme.identifier hbytes hhead (h.isRun hall) (by rwa [hasText])
  rwa [hasText] at hlexeme

/-! ## Integers before spaces -/

theorem isDigits_of_forall₂ {radix : Nat} {bytes : List UInt8} {values : List Nat}
    (h : List.Forall₂ (IsDigit radix) bytes values) (hne : bytes ≠ []) :
    IsDigits radix bytes bytes values := by
  induction h with
  | nil => exact absurd rfl hne
  | @cons byte value bytes values hdigit hrest ih =>
      cases hrest with
      | nil => exact .last hdigit
      | cons hnext hmore => exact .next hdigit (ih (List.cons_ne_nil _ _))

/-- The decimal digits of a number have its value, and the first is no zero unless it is all. -/
theorem exists_digits (value : Nat) : ∃ bytes values, encode (Nat.toDigits 10 value) = bytes ∧
    List.Forall₂ (IsDigit 10) bytes values ∧ Nat.ofDigits 10 values.reverse = value ∧
    (value ≠ 0 → bytes.head? ≠ some 0x30) := by
  induction value using Nat.strong_induction_on with
  | _ value ih =>
      have hdigit : ∀ digit < 10, utf8EncodeChar (Nat.digitChar digit) =
          [UInt8.ofNat (0x30 + digit)] := by decide
      rw [Nat.toDigits_eq_if (by decide)]
      by_cases hsmall : value < 10
      · rw [if_pos hsmall, encode_singleton, hdigit value hsmall]
        refine ⟨_, [value], rfl, .cons (.decimal value hsmall hsmall) .nil, by simp, ?_⟩
        intro hne hhead
        have hbyte := congrArg UInt8.toNat (Option.some.inj hhead)
        have hzero : (0x30 : UInt8).toNat = 48 := rfl
        rw [UInt8.toNat_ofNat', hzero] at hbyte
        omega
      · rw [if_neg hsmall, encode_append, encode_singleton, hdigit _ (Nat.mod_lt value (by decide))]
        obtain ⟨bytes, values, rfl, hall, hvalue, hhead⟩ := ih (value / 10) (by omega)
        refine ⟨_, values ++ [value % 10], rfl, ?_, ?_, fun _ => ?_⟩
        · have hlast := Nat.mod_lt value (by decide : 0 < 10)
          exact List.rel_append hall (.cons (.decimal _ hlast hlast) .nil)
        · rw [List.reverse_append, List.reverse_singleton, List.singleton_append, Nat.ofDigits_cons,
            hvalue]
          omega
        · rw [List.head?_append_of_ne_nil _ (encode_ne_nil Nat.toDigits_ne_nil)]
          exact hhead (by omega)

theorem LexicalGrammar.IsDigit.inWord {radix value : Nat} {byte : UInt8}
    (h : IsDigit radix byte value) : InWord byte := by
  have hdecimal : ∀ value < 10, isWordByte (UInt8.ofNat (0x30 + value)) = true := by decide
  have hlower : ∀ value < 6, isWordByte (UInt8.ofNat (0x61 + value)) = true := by decide
  have hupper : ∀ value < 6, isWordByte (UInt8.ofNat (0x41 + value)) = true := by decide
  rw [inWord_iff]
  cases h with
  | decimal _ _ hvalue => exact hdecimal _ hvalue
  | lower _ _ hvalue => exact hlower _ hvalue
  | upper _ _ hvalue => exact hupper _ hvalue

theorem inWord_of_forall₂ {radix : Nat} {bytes : List UInt8} {values : List Nat}
    (h : List.Forall₂ (IsDigit radix) bytes values) : ∀ byte ∈ bytes, InWord byte := by
  induction h with
  | nil => simp
  | cons hdigit _ ih => exact List.forall_mem_cons.mpr ⟨hdigit.inWord, ih⟩

theorem isLexeme_small_of_atSpace {value : Nat} (hvalue : value ≤ IntegerValue.smallMax)
    {after : List UInt8} (h : AtSpace after) :
    IsLexeme (encode (toString value).toList) after ⟨.intLiteral, .int (.small value)⟩ := by
  obtain ⟨bytes, values, hbytes, hall, hdigits, hhead⟩ := exists_digits value
  have htext : (toString value).toList = Nat.toDigits 10 value := by simp
  rw [htext, hbytes]
  refine .literal (h.isRun (inWord_of_forall₂ hall)) ?_
  by_cases hzero : value = 0
  · subst hzero
    rw [← hbytes]
    exact .zero
  · have hne : bytes ≠ [] := hbytes ▸ encode_ne_nil Nat.toDigits_ne_nil
    have hliteral := IsLiteral.decimal (isDigits_of_forall₂ hall hne) (hhead hzero)
    unfold IntegerValue.smallMax at hvalue
    rwa [literalValue, hdigits, if_pos (by omega)] at hliteral

theorem isLexeme_oversized_of_atSpace {digits : String} {radix : Nat}
    (hdigits : IsOversized digits radix) {after : List UInt8} (h : AtSpace after) :
    IsLexeme (encode (IntegerValue.spelling (.oversized digits radix))) after
      ⟨.intLiteral, .int (.oversized digits radix)⟩ := by
  obtain @⟨radix, bytes, values, hradix, hall, hvalue, hhead⟩ := hdigits
  have hword := inWord_of_forall₂ hall
  have hbytes : encode (asText bytes).toList = bytes := by
    rw [asText, String.toList_ofList]
    exact encode_map_asChar fun byte hbyte => (hword byte hbyte).toNat_lt
  have hne : bytes ≠ [] := by
    rintro rfl
    cases hall
    simp [IntegerValue.smallMax] at hvalue
  have hliteral : literalValue radix bytes values = .oversized (asText bytes) radix := by
    unfold IntegerValue.smallMax at hvalue
    rw [literalValue, if_neg (by omega)]
  have hdigits := isDigits_of_forall₂ hall hne
  rw [IntegerValue.spelling, encode_append, hbytes]
  have hmarked : ∀ mark : UInt8, isWordByte mark = true →
      ∀ byte ∈ 0x30 :: mark :: bytes, InWord byte := by
    intro mark hmark
    have hzero : InWord 0x30 := (inWord_iff 0x30).mpr rfl
    exact List.forall_mem_cons.mpr
      ⟨hzero, List.forall_mem_cons.mpr ⟨(inWord_iff mark).mpr hmark, hword⟩⟩
  rcases hradix with rfl | rfl | rfl
  · have hvalue := IsLiteral.decimal hdigits (hhead rfl)
    rw [hliteral] at hvalue
    exact .literal (h.isRun hword) hvalue
  · have hvalue := IsLiteral.hexadecimal (.inl rfl) hdigits
    rw [hliteral] at hvalue
    exact .literal (h.isRun (hmarked 0x78 rfl)) hvalue
  · have hvalue := IsLiteral.binary (.inl rfl) hdigits
    rw [hliteral] at hvalue
    exact .literal (h.isRun (hmarked 0x62 rfl)) hvalue

/-- A lexeme is read as it is spelled, in front of a space. -/
theorem Lexeme.Spellable.isLexeme {lexeme : Lexeme} (hlexeme : lexeme.Spellable)
    {after : List UInt8} (h : AtSpace after) : IsLexeme (encode lexeme.spelling) after lexeme := by
  cases hlexeme with
  | symbol s => exact s.isLexeme_of_atSpace h
  | keyword k => exact k.isLexeme_of_atSpace h
  | identifier htext hkeyword => exact isLexeme_identifier_of_atSpace htext hkeyword h
  | small hvalue => exact isLexeme_small_of_atSpace hvalue h
  | oversized hdigits => exact isLexeme_oversized_of_atSpace hdigits h

/-! ## Only spelled lexemes are read -/

theorem isWordText_of_isRun {text after : List UInt8} {head : UInt8} {tail : List UInt8}
    (htext : text = head :: tail) (hhead : IsWordHead head) (hrun : IsRun text after) :
    IsWordText (asText text) := by
  have hunderscore : asChar 0x5F = '_' := by decide
  subst htext
  refine ⟨asChar head, tail.map asChar, by rw [asText, String.toList_ofList]; rfl, ?_, ?_⟩
  · exact hhead.imp_right fun h => by rw [h, hunderscore]
  · intro char hchar
    obtain ⟨byte, hbyte, rfl⟩ := List.mem_map.mp hchar
    exact (hrun.1 byte (List.mem_cons_of_mem _ hbyte)).imp_right fun h => by rw [h, hunderscore]

theorem spellable_literalValue {radix : Nat} {word digits : List UInt8} {values : List Nat}
    (hradix : radix = 10 ∨ radix = 16 ∨ radix = 2) (h : IsDigits radix word digits values)
    (hhead : radix = 10 → digits.head? ≠ some 0x30) :
    Lexeme.Spellable ⟨.intLiteral, .int (literalValue radix digits values)⟩ := by
  have hmax : IntegerValue.smallMax = 2 ^ 62 - 1 := rfl
  unfold literalValue
  by_cases hsmall : Nat.ofDigits radix values.reverse < 2 ^ 62
  · rw [if_pos hsmall]
    exact .small (by omega)
  · rw [if_neg hsmall]
    exact .oversized (.mk hradix (Number.forall₂_of_isDigits h) (by omega) hhead)

theorem LexicalGrammar.IsDigits.head?_eq {radix : Nat} {word digits : List UInt8}
    {values : List Nat} (h : IsDigits radix word digits values) : digits.head? = word.head? := by
  cases h <;> rfl

theorem LexicalGrammar.IsLexeme.spellable {text after : List UInt8} {lexeme : Lexeme}
    (h : IsLexeme text after lexeme) : lexeme.Spellable := by
  cases h with
  | keyword k _ _ _ _ => exact .keyword k
  | symbol s _ _ _ _ => exact .symbol s
  | identifier htext hhead hrun hkeyword =>
      exact .identifier (isWordText_of_isRun htext hhead hrun) hkeyword
  | literal _ hliteral =>
      cases hliteral with
      | zero => exact .small (Nat.zero_le _)
      | decimal hdigits hhead =>
          exact spellable_literalValue (.inl rfl) hdigits fun _ => by rwa [hdigits.head?_eq]
      | hexadecimal _ hdigits =>
          exact spellable_literalValue (.inr (.inl rfl)) hdigits fun h => nomatch h
      | binary _ hdigits =>
          exact spellable_literalValue (.inr (.inr rfl)) hdigits fun h => nomatch h

theorem LexicalGrammar.Decomposes.spellable {source : List UInt8} {lexemes : List Lexeme}
    (h : Decomposes source lexemes) : ∀ lexeme ∈ lexemes, lexeme.Spellable := by
  induction h with
  | nil => simp
  | trivia _ _ ih => exact ih
  | lexeme hlexeme _ ih => exact List.forall_mem_cons.mpr ⟨hlexeme.spellable, ih⟩

/-! ## Renderings are read -/

/-- After the first lexeme, each has a space before it. -/
theorem rendering_cons (lexeme : Lexeme) (lexemes : List Lexeme) :
    rendering (lexeme :: lexemes) =
      lexeme.spelling ++ lexemes.flatMap fun next => ' ' :: next.spelling := by
  induction lexemes generalizing lexeme with
  | nil => simp [rendering, List.intercalate]
  | cons next lexemes ih =>
      have hnext : rendering (lexeme :: next :: lexemes) =
          lexeme.spelling ++ ' ' :: rendering (next :: lexemes) := by
        simp [rendering, List.intercalate]
      rw [hnext, ih, List.flatMap_cons, List.cons_append]

theorem map_snd_renderedAfter (before : List Char) (lexemes : List Lexeme) :
    (renderedAfter before lexemes).map Prod.snd = lexemes := by
  induction lexemes generalizing before with
  | nil => rfl
  | cons lexeme lexemes ih => rw [renderedAfter, List.map_cons, ih]

theorem Lexeme.Spellable.ofChar_eq_visible {lexeme : Lexeme} (h : lexeme.Spellable) {char : Char}
    (hchar : char ∈ lexeme.spelling) : Move.ofChar char = .visible := by
  have hgraphic := (h.isLexeme AtSpace.nil).isGraphic
  have hne : ∀ mark : UInt8, mark.toNat ≤ 0x20 → char ≠ asChar mark := by
    rintro mark hmark rfl
    have hbyte := hgraphic mark ((mem_encode_iff (by omega)).mpr hchar)
    exact absurd hbyte.1 (by omega)
  rw [Move.ofChar, if_neg, if_neg]
  · exact hne 0x09 (by decide)
  · rintro (hfeed | hreturn)
    · exact hne 0x0A (by decide) hfeed
    · exact hne 0x0D (by decide) hreturn

/-- Visible characters take a column each. -/
theorem Layout.pos_nextAll_of_visible (config : LayoutConfig) {text : List Char}
    (h : ∀ char ∈ text, Move.ofChar char = .visible) {l : Layout}
    (hroom : l.pos.column + text.length ≤ countMax) :
    (l.nextAll config (Move.ofText text)).pos = ⟨l.pos.line, l.pos.column + text.length⟩ := by
  fun_induction Move.ofText text generalizing l with
  | case1 => rfl
  | case2 text ih => exact absurd (h '\r' List.mem_cons_self) (by decide)
  | case3 char text hwide ih =>
      obtain ⟨hchar, htext⟩ := List.forall_mem_cons.mp h
      have hright : l.pos.right 1 = ⟨l.pos.line, l.pos.column + 1⟩ := by
        rw [Position.right, addCount, Nat.min_eq_left (by rw [List.length_cons] at hroom; omega)]
      rw [List.length_cons, Nat.add_comm text.length, ← Nat.add_assoc] at hroom ⊢
      rw [nextAll_cons, hchar, ih htext (by rwa [next, hright])]
      simp only [next, hright]

section Spellable

variable {lexemes : List Lexeme} (h : ∀ lexeme ∈ lexemes, lexeme.Spellable)

include h

/-- A rendering is made of its lexemes and the spaces between them. -/
theorem decomposesBetween_rendering (before : List Char) :
    DecomposesBetween [] before (rendering lexemes) (renderedAfter before lexemes) := by
  cases lexemes with
  | nil => exact .nil before
  | cons lexeme lexemes =>
      rw [rendering_cons]
      induction lexemes generalizing before lexeme with
      | nil =>
          obtain ⟨hlexeme, -⟩ := List.forall_mem_cons.mp h
          exact .lexeme lexeme.spelling (hlexeme.isLexeme .nil) (.nil _)
      | cons next lexemes ih =>
          obtain ⟨hlexeme, hrest⟩ := List.forall_mem_cons.mp h
          refine .lexeme lexeme.spelling (hlexeme.isLexeme (.space _)) ?_
          exact .trivia [' '] ⟨.space _, fun hsplit => nomatch hsplit.1⟩ (ih _ next hrest)

theorem ofChar_rendering : ∀ char ∈ rendering lexemes, Move.ofChar char = .visible := by
  cases lexemes with
  | nil => simp [rendering, List.intercalate]
  | cons lexeme lexemes =>
      obtain ⟨hlexeme, hrest⟩ := List.forall_mem_cons.mp h
      intro char hchar
      rw [rendering_cons, List.mem_append, List.mem_flatMap] at hchar
      rcases hchar with hchar | ⟨next, hnext, hchar⟩
      · exact hlexeme.ofChar_eq_visible hchar
      · rcases List.mem_cons.mp hchar with rfl | hchar
        · rfl
        · exact (hrest next hnext).ofChar_eq_visible hchar

theorem decomposes_rendering : Decomposes (encode (rendering lexemes)) lexemes := by
  have hentries := (decomposesBetween_rendering h []).decomposes
  rwa [map_snd_renderedAfter] at hentries

theorem body_rendering :
    Reading.body (encode (rendering lexemes)) = encode (rendering lexemes) := by
  refine Reading.body_of_not_marked ?_
  rintro ⟨rest, hrest⟩
  have hmarked := decomposes_rendering h
  rw [← hrest] at hmarked
  exact not_decomposes_byteOrderMark hmarked

/-- Without limits the lexemes of a rendering are read in one line. -/
theorem all_rendering {config : LayoutConfig} (hlimits : config.limits = .unlimited)
    (hshort : (rendering lexemes).length < countMax) :
    (Reading.ofSource config (encode (rendering lexemes))).all =
      .ok ((renderedAfter [] lexemes).map (fun entry => ⟨⟨1, 1 + entry.1.length⟩, entry.2⟩) ++
        [⟨⟨1, 1 + (rendering lexemes).length⟩, .endOfFile⟩]) := by
  have hdecomposes := decomposesBetween_rendering h []
  have hwithin : (Reading.first (encode (rendering lexemes))).Within config :=
    Reading.first_within_iff.mpr fun _ => by
      rw [hlimits]
      decide
  have hmoves := hwithin.stepAll_unlimited hlimits (Move.ofText (rendering lexemes))
  obtain ⟨houtcome, hlexemes⟩ :=
    Reading.outcome_of_decomposesBetween (by rw [body_rendering h, List.append_nil])
      Pieces.ofSource_nil hdecomposes hwithin
  have hpos : ∀ text, text <+: rendering lexemes →
      ((Reading.first (encode (rendering lexemes))).nextAll config (Move.ofText text)).pos =
        ⟨1, 1 + text.length⟩ := by
    intro text htext
    have hvisible := fun char hchar => ofChar_rendering h char (htext.mem hchar)
    have hlength := htext.length_le
    have hcolumn : (Reading.first (encode (rendering lexemes))).pos.column = 1 := rfl
    rw [Layout.pos_nextAll_of_visible config hvisible (by omega)]
    rfl
  have hplaces : ∀ entry ∈ renderedAfter [] lexemes, entry.1 <+: rendering lexemes := by
    intro entry hentry
    obtain ⟨more, hmore, -⟩ := hdecomposes.prefix_of_mem (.nil_left _) hentry
    exact ⟨more, hmore.symm⟩
  rw [hmoves] at houtcome
  rw [Reading.all, houtcome, hlexemes _ hmoves]
  simp only [Except.bind, Except.map, Reading.finish, hpos _ List.prefix_rfl]
  refine congrArg (fun placed => Except.ok (placed ++ _)) ?_
  refine List.map_congr_left fun entry hentry => ?_
  rw [hpos entry.1 (hplaces entry hentry)]

theorem spelledTokens_of_spellable {config : LayoutConfig} (hlimits : config.limits = .unlimited)
    {names : Interner hash} (hnames : names.WellFormed)
    (hroom : names.size + (encode (rendering lexemes)).length < countMax) :
    spelledTokens config (encode (rendering lexemes)) names =
      .ok ((renderedAfter [] lexemes).map (fun entry => some ⟨⟨1, 1 + entry.1.length⟩, entry.2⟩) ++
        [some ⟨⟨1, 1 + (rendering lexemes).length⟩, .endOfFile⟩]) := by
  have hlength := length_le_encode (rendering lexemes)
  unfold countMax at hroom
  rw [spelledTokens_eq config _ hnames (by omega),
    all_rendering h hlimits (by unfold countMax; omega)]
  simp [Except.map]

end Spellable

/-- Tokens that are spelled come from a source that is read to its end. -/
theorem exists_outcome_of_spelledTokens {config : LayoutConfig} {source : List UInt8}
    {names : Interner hash} {spelled : List (Option PlacedLexeme)}
    (h : spelledTokens config source names = .ok spelled) :
    ∃ stop, (Reading.ofSource config source).outcome = .ok stop := by
  rw [← exists_tokenize_ok_iff config source names]
  rw [spelledTokens] at h
  cases htokens : (tokenize config source names).1 with
  | ok tokens => exact ⟨tokens, rfl⟩
  | error e =>
      simp only [htokens] at h
      cases h

/-- Lexemes that are spelled with spaces between them are read back without limits, each at its
place in one line. The lexemes of any source that is read are such lexemes, so their rendering is
read as the source is.

An integer beyond the small ones is compared by its digits, without separators between them. -/
theorem spelledTokens_rendering {config : LayoutConfig} (hlimits : config.limits = .unlimited)
    {names : Interner hash} (hnames : names.WellFormed) :
    (∀ lexemes : List Lexeme, (∀ lexeme ∈ lexemes, lexeme.Spellable) →
      names.size + (encode (rendering lexemes)).length < countMax →
      spelledTokens config (encode (rendering lexemes)) names =
        .ok ((renderedAfter [] lexemes).map
            (fun entry => some ⟨⟨1, 1 + entry.1.length⟩, entry.2⟩) ++
          [some ⟨⟨1, 1 + (rendering lexemes).length⟩, .endOfFile⟩])) ∧
    ∀ (other : LayoutConfig) (source : List UInt8) (earlier : Interner hash)
      (spelled : List (Option PlacedLexeme)), earlier.WellFormed →
      spelledTokens other source earlier = .ok spelled →
      ∃ lexemes : List Lexeme, Decomposes (Reading.body source) lexemes ∧
        (∀ lexeme ∈ lexemes, lexeme.Spellable) ∧
        (earlier.size + (encode (rendering lexemes)).length < countMax →
          spelled.map (Option.map PlacedLexeme.lexeme) = (lexemes ++ [Lexeme.endOfFile]).map some) ∧
        (names.size + (encode (rendering lexemes)).length < countMax →
          ∃ again, spelledTokens config (encode (rendering lexemes)) names = .ok again ∧
            again.map (Option.map PlacedLexeme.lexeme) =
              (lexemes ++ [Lexeme.endOfFile]).map some) := by
  refine ⟨fun lexemes hspellable => spelledTokens_of_spellable hspellable hlimits hnames,
    fun other source earlier spelled hearlier hspelled => ?_⟩
  obtain ⟨stop, hstop⟩ := exists_outcome_of_spelledTokens hspelled
  have hdecomposes := Reading.decomposes_of_outcome hstop
  have hspellable := hdecomposes.spellable
  refine ⟨_, hdecomposes, hspellable, fun hroom => ?_, fun hroom => ?_⟩
  · have hlength := length_le_of_decomposes (decomposes_rendering hspellable)
    rw [List.length_map] at hlength
    unfold countMax at hroom
    rw [spelledTokens_eq_of_room hearlier (by omega), Reading.all, hstop] at hspelled
    rw [← Except.ok.inj hspelled]
    simp
  · refine ⟨_, spelledTokens_of_spellable hspellable hlimits hnames hroom, ?_⟩
    generalize (Reading.ofSource other source).lexemes.map _ = lexemes
    rw [List.map_append, List.map_append, List.map_map]
    conv_rhs => rw [← map_snd_renderedAfter [] lexemes, List.map_map]
    rfl

theorem spelledTokens_rendering_oversized :
    spelledTokens ⟨8, .unlimited⟩
        (encode (rendering [⟨.keyword .let_, .none⟩, ⟨.identifier, .ident "x_1"⟩,
          ⟨.intLiteral, .int (.oversized "4000000000000000" 16)⟩])) .noNames =
      .ok [some ⟨⟨1, 1⟩, ⟨.keyword .let_, .none⟩⟩, some ⟨⟨1, 5⟩, ⟨.identifier, .ident "x_1"⟩⟩,
        some ⟨⟨1, 9⟩, ⟨.intLiteral, .int (.oversized "4000000000000000" 16)⟩⟩,
        some ⟨⟨1, 27⟩, .endOfFile⟩] := by
  have hzeros : ∀ n, List.Forall₂ (IsDigit 16) (List.replicate n 0x30) (List.replicate n 0) := by
    intro n
    induction n with
    | zero => exact .nil
    | succ n ih => exact .cons (.decimal 0 (by decide) (by decide)) ih
  have hoversized : IsOversized "4000000000000000" 16 :=
    .mk (.inr (.inl rfl)) (.cons (.decimal 4 (by decide) (by decide)) (hzeros 15)) (by decide)
      (by decide)
  have hidentifier : IsWordText "x_1" :=
    isWordText_of_all (rfl : _ = ['x', '_', '1']) (.inl (by decide)) (by decide)
  have hlimits : (⟨8, .unlimited⟩ : LayoutConfig).limits = .unlimited := rfl
  refine (spelledTokens_rendering hlimits Interner.noNames_wellFormed).1
    [⟨.keyword .let_, .none⟩, ⟨.identifier, .ident "x_1"⟩,
      ⟨.intLiteral, .int (.oversized "4000000000000000" 16)⟩] ?_ (by decide +kernel)
  intro lexeme hlexeme
  simp only [List.mem_cons, List.not_mem_nil, or_false] at hlexeme
  rcases hlexeme with rfl | rfl | rfl
  · exact .keyword _
  · exact .identifier hidentifier (by intro k; cases k <;> decide)
  · exact .oversized hoversized

end FrontEnd
