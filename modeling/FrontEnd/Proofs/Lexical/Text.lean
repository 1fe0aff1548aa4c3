import FrontEnd.Proofs.Lexical.Piece

/-! # What is read is text

Every piece of a source is well-formed text, so a place between two pieces has the characters
before it, and a source with its lexemes can be described by them. -/

namespace FrontEnd

open String (utf8EncodeChar)
open LexicalGrammar

/-! ## Encodings -/

/-- A character takes one byte, or a lead byte and some that continue it. -/
theorem Utf8.encode_cases (char : Char) :
    (char.toNat < 128 ∧ utf8EncodeChar char = [UInt8.ofNat char.toNat]) ∨
      ∃ lead following, utf8EncodeChar char = lead :: following ∧
        Spells lead following char.toNat := by
  by_cases hascii : char.toNat < 128
  · exact .inl ⟨hascii, encode_ascii hascii⟩
  · right
    cases hbytes : utf8EncodeChar char with
    | nil => exact absurd hbytes (Comment.encodeChar_ne_nil char)
    | cons lead rest =>
        have hdecode := decode_encode char []
        rw [List.append_nil, hbytes] at hdecode
        rcases exists_of_decode hdecode with
          ⟨hlead, hcode, -⟩ | ⟨following, after, hrest, hspells, hn⟩
        · omega
        · have hafter : after = [] := by
            rw [hrest] at hn
            simpa using hn
          rw [hafter, List.append_nil] at hrest
          exact ⟨lead, rest, rfl, hrest ▸ hspells⟩

/-- A character has one lead byte, and then bytes that continue it. -/
theorem Utf8.continues_of_encode {char : Char} {lead : UInt8} {following : List UInt8}
    (h : utf8EncodeChar char = lead :: following) :
    isContinuation lead = false ∧ following.all isContinuation = true := by
  rw [Bool.eq_false_iff, ne_eq, isContinuation_iff]
  rcases encode_cases char with ⟨hascii, hencode⟩ | ⟨lead, following, hencode, hspells⟩
  · rw [hencode] at h
    obtain ⟨rfl, rfl⟩ := List.cons.inj h
    rw [UInt8.toNat_ofNat']
    exact ⟨by omega, rfl⟩
  · rw [hencode] at h
    obtain ⟨rfl, rfl⟩ := List.cons.inj h
    have hwidth := hspells.width_eq
    have hlength := hspells.length_le
    rw [Utf8.width_eq] at hwidth
    refine ⟨?_, hspells.continues⟩
    split_ifs at hwidth <;> omega

namespace LexicalGrammar

@[simp] theorem encode_nil : encode [] = [] := rfl

@[simp] theorem encode_append (first second : List Char) :
    encode (first ++ second) = encode first ++ encode second := List.flatMap_append

theorem encode_singleton (char : Char) : encode [char] = utf8EncodeChar char :=
  List.append_nil _

/-- A text has no more characters than bytes. -/
theorem length_le_encode (text : List Char) : text.length ≤ (encode text).length := by
  induction text with
  | nil => exact le_rfl
  | cons char text ih =>
      have hpos := List.length_pos_iff.mpr (Comment.encodeChar_ne_nil char)
      simp only [Comment.encode_cons, List.length_append, List.length_cons]
      omega

theorem encode_ne_nil {text : List Char} (h : text ≠ []) : encode text ≠ [] := by
  intro hnil
  have hle := length_le_encode text
  have hpos := List.length_pos_iff.mpr h
  simp only [hnil, List.length_nil] at hle
  omega

theorem encode_injective : Function.Injective encode := by
  intro text other h
  induction text generalizing other with
  | nil =>
      by_contra hne
      exact encode_ne_nil (Ne.symm hne) h.symm
  | cons char text ih =>
      cases other with
      | nil => exact absurd h (encode_ne_nil (List.cons_ne_nil char text))
      | cons first other =>
          obtain ⟨rfl, hrest⟩ := Comment.encode_append_inj h
          rw [ih hrest]

/-! ### ASCII -/

theorem encodeChar_asChar {byte : UInt8} (h : byte.toNat < 128) :
    utf8EncodeChar (asChar byte) = [byte] := by
  have hchar : (asChar byte).toNat = byte.toNat := Utf8.toNat_ofNat (.inl (by omega))
  rw [Utf8.encode_ascii (by omega), hchar, UInt8.ofNat_toNat]

theorem encode_map_asChar {bytes : List UInt8} (h : ∀ byte ∈ bytes, byte.toNat < 128) :
    encode (bytes.map asChar) = bytes := by
  induction bytes with
  | nil => rfl
  | cons byte bytes ih =>
      obtain ⟨hbyte, hbytes⟩ := List.forall_mem_cons.mp h
      rw [List.map_cons, Comment.encode_cons, encodeChar_asChar hbyte, ih hbytes]
      rfl

/-- An ASCII byte is in no character but its own. -/
theorem mem_encodeChar_iff {mark : UInt8} (hmark : mark.toNat < 128) {char : Char} :
    mark ∈ utf8EncodeChar char ↔ char = asChar mark := by
  constructor
  · intro hmem
    rcases Utf8.encode_cases char with ⟨hascii, hencode⟩ | ⟨lead, following, hencode, hspells⟩
    · rw [hencode, List.mem_singleton] at hmem
      rw [hmem, asChar, UInt8.toNat_ofNat', Nat.mod_eq_of_lt (by omega), Char.ofNat_toNat]
    · rw [hencode, List.mem_cons] at hmem
      rcases hmem with rfl | hmem
      · exact absurd hspells.wide (by omega)
      · have hbyte := List.all_eq_true.mp hspells.continues mark hmem
        rw [Utf8.isContinuation_iff] at hbyte
        omega
  · rintro rfl
    rw [encodeChar_asChar hmark]
    exact List.mem_singleton_self mark

theorem mem_encode_iff {mark : UInt8} (hmark : mark.toNat < 128) {text : List Char} :
    mark ∈ encode text ↔ asChar mark ∈ text := by
  simp [encode, mem_encodeChar_iff hmark]

/-- An ASCII byte is the first one of a character exactly if it is all of it. -/
theorem head?_encodeChar_eq_iff {mark : UInt8} (hmark : mark.toNat < 128) {char : Char} :
    (utf8EncodeChar char).head? = some mark ↔ char = asChar mark := by
  constructor
  · intro hhead
    exact (mem_encodeChar_iff hmark).mp (List.mem_of_head? hhead)
  · rintro rfl
    rw [encodeChar_asChar hmark]
    rfl

theorem head?_encode_eq_iff {mark : UInt8} (hmark : mark.toNat < 128) {text : List Char} :
    (encode text).head? = some mark ↔ text.head? = some (asChar mark) := by
  cases text with
  | nil => simp
  | cons char text =>
      rw [Comment.encode_cons, List.head?_append_of_ne_nil _ (Comment.encodeChar_ne_nil char),
        head?_encodeChar_eq_iff hmark, List.head?_cons, Option.some.injEq]

/-- A byte that is a visible ASCII character. -/
def IsGraphic (byte : UInt8) : Prop := 0x20 < byte.toNat ∧ byte.toNat < 0x7F

theorem InWord.isGraphic {byte : UInt8} (h : InWord byte) : IsGraphic byte := by
  have hall : ∀ n < 256, isWordByte (UInt8.ofNat n) = true → 0x20 < n ∧ n < 0x7F := by
    decide +kernel
  have hbyte := hall byte.toNat byte.toNat_lt
  rw [UInt8.ofNat_toNat] at hbyte
  exact hbyte ((inWord_iff byte).mp h)

theorem InWord.toNat_lt {byte : UInt8} (h : InWord byte) : byte.toNat < 128 :=
  h.isGraphic.2.trans (by decide)

end LexicalGrammar

theorem Symbol.isGraphic (s : Symbol) : ∀ byte ∈ s.bytes, IsGraphic byte := by
  unfold IsGraphic
  cases s <;> decide +kernel

/-! ## Pieces -/

namespace LexicalGrammar

variable {text after : List UInt8}

theorem IsLexeme.isGraphic {lexeme : Lexeme} (h : IsLexeme text after lexeme) :
    ∀ byte ∈ text, IsGraphic byte := by
  cases h with
  | keyword _ _ _ hrun _ => exact fun byte hbyte => (hrun.1 byte hbyte).isGraphic
  | identifier _ _ hrun _ => exact fun byte hbyte => (hrun.1 byte hbyte).isGraphic
  | literal hrun _ => exact fun byte hbyte => (hrun.1 byte hbyte).isGraphic
  | symbol s hspelling _ _ _ =>
      rw [Symbol.asText_eq_spelling_iff.mp hspelling]
      exact s.isGraphic

theorem IsLexeme.toNat_lt {lexeme : Lexeme} (h : IsLexeme text after lexeme) {byte : UInt8}
    (hbyte : byte ∈ text) : byte.toNat < 128 :=
  (h.isGraphic byte hbyte).2.trans (by decide)

theorem InBlock.exists_encode {enclosing : Nat} (h : InBlock enclosing text) :
    ∃ chars, text = encode chars := by
  induction h with
  | close => exact ⟨['*', '/'], by decide⟩
  | leave _ ih =>
      obtain ⟨chars, rfl⟩ := ih
      exact ⟨'*' :: '/' :: chars, rfl⟩
  | enter _ ih =>
      obtain ⟨chars, rfl⟩ := ih
      exact ⟨'/' :: '*' :: chars, rfl⟩
  | character char _ _ _ _ ih =>
      obtain ⟨chars, rfl⟩ := ih
      exact ⟨char :: chars, rfl⟩

theorem IsTrivia.exists_encode (h : IsTrivia text after) : ∃ chars, text = encode chars := by
  cases h with
  | space => exact ⟨[' '], by decide⟩
  | tab => exact ⟨['\t'], by decide⟩
  | lineFeed => exact ⟨['\n'], by decide⟩
  | carriageReturn => exact ⟨['\r'], by decide⟩
  | wideBreak => exact ⟨['\r', '\n'], by decide⟩
  | lineComment chars _ _ => exact ⟨'/' :: '/' :: chars, rfl⟩
  | blockComment _ hbody =>
      obtain ⟨chars, rfl⟩ := hbody.exists_encode
      exact ⟨'/' :: '*' :: chars, rfl⟩

end LexicalGrammar

theorem IsPiece.exists_encode {text after : List UInt8} {lexeme? : Option Lexeme}
    (h : IsPiece text after lexeme?) : ∃ chars, text = encode chars := by
  cases lexeme? with
  | none => exact h.1.exists_encode
  | some lexeme => exact ⟨text.map asChar, (encode_map_asChar fun _ => IsLexeme.toNat_lt h).symm⟩

theorem IsPiece.text_ne_nil {piece : List Char} {after : List UInt8} {lexeme? : Option Lexeme}
    (h : IsPiece (encode piece) after lexeme?) : piece ≠ [] := by
  rintro rfl
  exact ne_nil_of_isPiece h rfl

/-! ## Lexemes in a text -/

/-- A text between others is made of pieces. Each lexeme comes with the characters of the source
before it. -/
inductive DecomposesBetween (after : List UInt8) :
    (before text : List Char) → List (List Char × Lexeme) → Prop where
  | nil (before) : DecomposesBetween after before [] []
  | trivia {before text lexemes} (piece : List Char) :
      IsPiece (encode piece) (encode text ++ after) none →
      DecomposesBetween after (before ++ piece) text lexemes →
      DecomposesBetween after before (piece ++ text) lexemes
  | lexeme {before text lexemes lexeme} (piece : List Char) :
      IsLexeme (encode piece) (encode text ++ after) lexeme →
      DecomposesBetween after (before ++ piece) text lexemes →
      DecomposesBetween after before (piece ++ text) ((before, lexeme) :: lexemes)

namespace DecomposesBetween

variable {after : List UInt8}

theorem piece {before text : List Char} {lexemes : List (List Char × Lexeme)}
    {lexeme? : Option Lexeme} (piece : List Char)
    (hpiece : IsPiece (encode piece) (encode text ++ after) lexeme?)
    (hrest : DecomposesBetween after (before ++ piece) text lexemes) :
    DecomposesBetween after before (piece ++ text)
      ((lexeme?.map (Prod.mk before)).toList ++ lexemes) := by
  cases lexeme? with
  | none => exact .trivia piece hpiece hrest
  | some lexeme => exact .lexeme piece hpiece hrest

/-- Decompositions grow by one piece in front of the others, be it a lexeme or not. -/
@[elab_as_elim]
theorem induction
    {motive : (before text : List Char) → (lexemes : List (List Char × Lexeme)) →
      DecomposesBetween after before text lexemes → Prop}
    (nil : ∀ before, motive before [] [] (.nil before))
    (piece : ∀ {before text : List Char} {lexemes : List (List Char × Lexeme)}
      {lexeme? : Option Lexeme} (piece : List Char)
      (hpiece : IsPiece (encode piece) (encode text ++ after) lexeme?)
      (hrest : DecomposesBetween after (before ++ piece) text lexemes),
      motive (before ++ piece) text lexemes hrest →
      motive before (piece ++ text) ((lexeme?.map (Prod.mk before)).toList ++ lexemes)
        (.piece piece hpiece hrest))
    {before text : List Char} {lexemes : List (List Char × Lexeme)}
    (h : DecomposesBetween after before text lexemes) : motive before text lexemes h := by
  induction h with
  | nil before => exact nil before
  | trivia first hfirst hrest ih => exact piece first hfirst hrest ih
  | @lexeme before text lexemes lexeme first hfirst hrest ih =>
      have hpiece : IsPiece (encode first) (encode text ++ after) (some lexeme) := hfirst
      exact piece first hpiece hrest ih

theorem decomposes {before text : List Char} {lexemes : List (List Char × Lexeme)}
    (h : DecomposesBetween [] before text lexemes) :
    Decomposes (encode text) (lexemes.map Prod.snd) := by
  induction h with
  | nil before => exact .nil
  | trivia piece hpiece _ ih =>
      rw [List.append_nil] at hpiece
      rw [encode_append]
      exact .trivia hpiece.1 ih
  | lexeme piece hlexeme _ ih =>
      rw [List.append_nil] at hlexeme
      rw [encode_append]
      exact .lexeme hlexeme ih

end DecomposesBetween

/-- A source decomposes up to what remains of it. -/
theorem Pieces.exists_decomposesBetween (before : List Char) (source : List UInt8) :
    ∃ text lexemes, source = encode text ++ (ofSource source).remaining ∧
      DecomposesBetween (ofSource source).remaining before text lexemes := by
  induction source using Pieces.induction generalizing before with
  | nil => exact ⟨[], [], by simp, .nil before⟩
  | fault byte rest found hfind =>
      rw [ofSource_cons_of_error hfind]
      exact ⟨[], [], rfl, .nil before⟩
  | piece bytes rest lexeme? hpiece ih =>
      obtain ⟨piece, rfl⟩ := hpiece.exists_encode
      obtain ⟨text, lexemes, hrest, hdecomposes⟩ := ih (before ++ piece)
      have hcut : encode piece ++ rest = encode (piece ++ text) ++ (ofSource rest).remaining := by
        rw [encode_append, List.append_assoc, ← hrest]
      rw [ofSource_append hpiece]
      rw [hrest] at hpiece
      exact ⟨piece ++ text, _, hcut, .piece piece hpiece hdecomposes⟩

end FrontEnd
