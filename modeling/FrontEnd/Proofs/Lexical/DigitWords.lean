import FrontEnd.Proofs.Lexical.Limits

/-! # Words that start with a digit

Within the limits, a run of word bytes that starts with a digit is one literal, all of it, or an
error where it starts. The value of a literal is that of its digits, and it is found with words of
64 bits as it is with unbounded numbers. -/

namespace FrontEnd

variable {hash : String → UInt32}

open LexicalGrammar

/-! ## Digits -/

namespace LexicalGrammar

/-- What comes in front of the digits of a radix. -/
inductive IsRadixMark : List UInt8 → Nat → Prop where
  | decimal : IsRadixMark [] 10
  | hexadecimal {mark} : mark = 0x78 ∨ mark = 0x58 → IsRadixMark [0x30, mark] 16
  | binary {mark} : mark = 0x62 ∨ mark = 0x42 → IsRadixMark [0x30, mark] 2

/-- The bytes of a word that are no separators. -/
def unseparated (bytes : List UInt8) : List UInt8 := bytes.filter (· ≠ 0x5F)

/-- The value that digits have as a literal. -/
def HasValue (radix : Nat) (digits : List UInt8) (value : IntegerValue String) : Prop :=
  ∃ values, List.Forall₂ (IsDigit radix) digits values ∧
    value = if Nat.ofDigits radix values.reverse ≤ 2 ^ 62 - 1 then
        .small (Nat.ofDigits radix values.reverse)
      else .oversized (asText digits) radix

theorem IsDigit.ne_separator {radix value : Nat} {byte : UInt8} (h : IsDigit radix byte value) :
    byte ≠ 0x5F := by
  rintro rfl
  exact Number.not_isDigit_underscore h

theorem unseparated_cons {byte : UInt8} (h : byte ≠ 0x5F) (bytes : List UInt8) :
    unseparated (byte :: bytes) = byte :: unseparated bytes :=
  List.filter_cons_of_pos (by simpa using h)

theorem unseparated_separator (bytes : List UInt8) :
    unseparated (0x5F :: bytes) = unseparated bytes :=
  List.filter_cons_of_neg (by simp)

theorem IsDigits.eq_unseparated {radix : Nat} {bytes digits : List UInt8} {values : List Nat}
    (h : IsDigits radix bytes digits values) : digits = unseparated bytes := by
  induction h with
  | last hbyte =>
      rw [unseparated_cons hbyte.ne_separator]
      rfl
  | next hbyte _ ih => rw [unseparated_cons hbyte.ne_separator, ih]
  | separated hbyte _ ih =>
      rw [unseparated_cons hbyte.ne_separator, unseparated_separator, ih]

theorem IsDigits.hasValue {radix : Nat} {bytes digits : List UInt8} {values : List Nat}
    (h : IsDigits radix bytes digits values) :
    HasValue radix (unseparated bytes) (literalValue radix digits values) := by
  rw [← h.eq_unseparated]
  refine ⟨values, Number.forall₂_of_isDigits h, ?_⟩
  simp only [literalValue, Nat.le_sub_one_iff_lt (Nat.two_pow_pos 62)]

/-- A literal is the mark of a radix and digits of it, whose value it has. -/
theorem IsLiteral.exists_mark {word : List UInt8} {value : IntegerValue String}
    (h : IsLiteral word value) : ∃ mark radix bytes, IsRadixMark mark radix ∧
      word = mark ++ bytes ∧ HasValue radix (unseparated bytes) value := by
  cases h with
  | zero =>
      have hzero : IsDigit 10 0x30 0 := .decimal 0 (by decide) (by decide)
      exact ⟨[], 10, [0x30], .decimal, rfl, [0], .cons hzero .nil, rfl⟩
  | decimal hdigits _ => exact ⟨[], 10, word, .decimal, rfl, hdigits.hasValue⟩
  | hexadecimal hmark hdigits => exact ⟨_, 16, _, .hexadecimal hmark, rfl, hdigits.hasValue⟩
  | binary hmark hdigits => exact ⟨_, 2, _, .binary hmark, rfl, hdigits.hasValue⟩

end LexicalGrammar

/-! ## Values in words of 64 bits -/

namespace Number

/-- A product, unless it is too large for a word. -/
def checkedMul (a b : UInt64) : Option UInt64 :=
  if a.toNat * b.toNat < 2 ^ 64 then some (a * b) else none

/-- A sum, unless it is too large for a word. -/
def checkedAdd (a b : UInt64) : Option UInt64 :=
  if a.toNat + b.toNat < 2 ^ 64 then some (a + b) else none

/-- Takes one more digit into a value, with words only. -/
def addDigitWord (radix : Nat) (value? : Option UInt64) (byte : UInt8) : Option UInt64 :=
  value?.bind fun value =>
    (checkedMul value (UInt64.ofNat radix)).bind fun product =>
      (checkedAdd product (UInt64.ofNat ((digit? radix byte).getD 0))).filter
        (· ≤ UInt64.ofNat IntegerValue.smallMax)

/-- The value of digits, as long as it is small, with words only. -/
def smallWord? (radix : Nat) (digits : List UInt8) : Option UInt64 :=
  digits.foldl (addDigitWord radix) (some 0)

theorem checkedMul_eq_some_iff {a b c : UInt64} :
    checkedMul a b = some c ↔ c.toNat = a.toNat * b.toNat := by
  have hbound := c.toNat_lt
  unfold checkedMul
  split
  · rename_i hfits
    rw [Option.some.injEq, ← UInt64.toNat_inj, UInt64.toNat_mul, Nat.mod_eq_of_lt hfits, eq_comm]
  · simp
    omega

theorem checkedAdd_eq_some_iff {a b c : UInt64} :
    checkedAdd a b = some c ↔ c.toNat = a.toNat + b.toNat := by
  have hbound := c.toNat_lt
  unfold checkedAdd
  split
  · rename_i hfits
    rw [Option.some.injEq, ← UInt64.toNat_inj, UInt64.toNat_add, Nat.mod_eq_of_lt hfits, eq_comm]
  · simp
    omega

theorem digit?_lt {radix : Nat} (hradix : radix ≤ 16) (byte : UInt8) :
    (digit? radix byte).getD 0 < 16 := by
  cases hdigit : digit? radix byte with
  | none => decide
  | some value => exact ((digit?_eq_some radix byte value).mp hdigit).1.trans_le hradix

/-- Words lose a value only where it is not small. -/
theorem addDigitWord_eq_some_iff {radix : Nat} (hradix : radix ≤ 16) {value sum : UInt64}
    {byte : UInt8} : addDigitWord radix (some value) byte = some sum ↔
      sum.toNat = value.toNat * radix + (digit? radix byte).getD 0 ∧
        sum.toNat ≤ IntegerValue.smallMax := by
  have hdigit := digit?_lt hradix byte
  have hword : 16 < UInt64.size := by decide
  have hradixWord : (UInt64.ofNat radix).toNat = radix :=
    UInt64.toNat_ofNat_of_lt' (hradix.trans_lt hword)
  have hdigitWord : (UInt64.ofNat ((digit? radix byte).getD 0)).toNat =
      (digit? radix byte).getD 0 := UInt64.toNat_ofNat_of_lt' (hdigit.trans hword)
  have hmax : (UInt64.ofNat IntegerValue.smallMax).toNat = IntegerValue.smallMax := by decide
  simp only [addDigitWord, Option.bind_some, Option.bind_eq_some_iff, Option.filter_eq_some_iff,
    checkedMul_eq_some_iff, checkedAdd_eq_some_iff, hradixWord, hdigitWord, decide_eq_true_eq,
    UInt64.le_iff_toNat_le, hmax]
  constructor
  · rintro ⟨product, hproduct, hsum, hsmall⟩
    exact ⟨by rw [hsum, hproduct], hsmall⟩
  · rintro ⟨hsum, hsmall⟩
    -- the product is no larger than the sum, which is a word
    have hlt : value.toNat * radix < 2 ^ 64 := by
      have hword := sum.toNat_lt
      omega
    exact ⟨UInt64.ofNat (value.toNat * radix), UInt64.toNat_ofNat_of_lt' hlt,
      by rw [UInt64.toNat_ofNat_of_lt' hlt, hsum], hsmall⟩

theorem toNat_addDigitWord {radix : Nat} (hradix : radix ≤ 16) (value? : Option UInt64)
    (byte : UInt8) :
    (addDigitWord radix value? byte).map UInt64.toNat =
      addDigit radix (value?.map UInt64.toNat) byte := by
  cases value? with
  | none => rfl
  | some value =>
      ext sum
      simp only [Option.map_eq_some_iff, addDigitWord_eq_some_iff hradix, addDigit,
        Option.map_some, Option.bind_some, Option.ite_none_right_eq_some, Option.some.injEq]
      constructor
      · rintro ⟨word, ⟨hsum, hsmall⟩, rfl⟩
        exact ⟨hsum ▸ hsmall, hsum.symm⟩
      · rintro ⟨hsmall, rfl⟩
        have hword : (UInt64.ofNat (value.toNat * radix + (digit? radix byte).getD 0)).toNat =
            value.toNat * radix + (digit? radix byte).getD 0 :=
          UInt64.toNat_ofNat_of_lt' (hsmall.trans_lt (by decide))
        exact ⟨_, ⟨hword, hword.symm ▸ hsmall⟩, hword⟩

/-- Words find the same value as unbounded numbers, however many digits there are. -/
theorem toNat_smallWord? {radix : Nat} (hradix : radix ≤ 16) (digits : List UInt8) :
    (smallWord? radix digits).map UInt64.toNat = smallValue? radix digits := by
  have hfold : ∀ value? : Option UInt64,
      (digits.foldl (addDigitWord radix) value?).map UInt64.toNat =
        digits.foldl (addDigit radix) (value?.map UInt64.toNat) := by
    induction digits with
    | nil => exact fun value? => rfl
    | cons byte digits ih =>
        intro value?
        rw [List.foldl_cons, List.foldl_cons, ih, toNat_addDigitWord hradix]
  exact hfold (some 0)

end Number

/-! ## Readings that meet no limit -/

namespace Layout

variable {config : LayoutConfig} {l : Layout} {e : LexicalError}

theorem isLimit_of_visible {columns : Nat} (h : l.visible config columns = .error e) :
    e.kind.isLimit = true := by
  rw [visible_eq] at h
  split_ifs at h <;> cases h <;> rfl

theorem isLimit_of_lineBreak (h : l.lineBreak config = .error e) : e.kind.isLimit = true := by
  rw [lineBreak_eq] at h
  split_ifs at h <;> cases h <;> rfl

/-- A move fails only at a limit. -/
theorem isLimit_of_step {move : Move} (h : l.step config move = .error e) :
    e.kind.isLimit = true := by
  cases move with
  | visible => exact isLimit_of_visible h
  | tab => exact isLimit_of_visible h
  | lineBreak => exact isLimit_of_lineBreak h
  | wideLineBreak =>
      rw [step, wideLineBreak_eq] at h
      split_ifs at h
      · cases h
        rfl
      · exact isLimit_of_lineBreak h

theorem isLimit_of_stepAll {moves : List Move} (h : l.stepAll config moves = .error e) :
    e.kind.isLimit = true := by
  induction moves generalizing l with
  | nil => cases h
  | cons move moves ih =>
      rw [stepAll_cons] at h
      rcases Except.bind_eq_error_iff.mp h with hfirst | ⟨moved, -, hrest⟩
      · exact isLimit_of_step hfirst
      · exact ih hrest

end Layout

theorem DecomposesBetween.append {after : List UInt8} {before text rest : List Char}
    {lexemes later : List (List Char × Lexeme)}
    (h : DecomposesBetween (encode rest ++ after) before text lexemes)
    (hrest : DecomposesBetween after (before ++ text) rest later) :
    DecomposesBetween after before (text ++ rest) (lexemes ++ later) := by
  induction h using DecomposesBetween.induction with
  | nil before => simpa using hrest
  | @piece before text lexemes lexeme? piece hpiece _ ih =>
      rw [← List.append_assoc, ← encode_append] at hpiece
      rw [← List.append_assoc] at hrest
      rw [List.append_assoc, List.append_assoc]
      exact .piece piece hpiece (ih hrest)

/-- A lexeme that comes after a text, at its place as far as it is counted. -/
def PlacedLexeme.afterText (tabStop : Nat) (entry : List Char × Lexeme) : PlacedLexeme :=
  ⟨(Position.start.afterText tabStop entry.1).capped, entry.2⟩

namespace Reading

/-- No limit is met while a source is read. -/
def MeetsNoLimit (config : LayoutConfig) (source : List UInt8) : Prop :=
  ∀ e, (ofSource config source).outcome = .error e → e.kind.isLimit = false

variable {config : LayoutConfig} {source : List UInt8}

theorem pos_first_nextAll (config : LayoutConfig) (source : List UInt8) (text : List Char) :
    ((first source).nextAll config (Move.ofText text)).pos =
      (Position.start.afterText config.tabStop text).capped :=
  Layout.nextAll_capped rfl _

namespace MeetsNoLimit

theorem within (h : MeetsNoLimit config source) : (first source).Within config := by
  by_contra hwithin
  cases h _ (outcome_of_not_within hwithin)

/-- A source that is cut up to some bytes is read up to them. -/
theorem outcome_eq (h : MeetsNoLimit config source) {text : List Char}
    {lexemes : List (List Char × Lexeme)} {after : List UInt8} {fault? : Option ReadFault}
    (hbody : body source = encode text ++ after)
    (hafter : Pieces.ofSource after = ⟨[], after, fault?⟩)
    (htext : DecomposesBetween after [] text lexemes) :
    (ofSource config source).outcome =
        finish config ((first source).nextAll config (Move.ofText text)) after fault? ∧
      (ofSource config source).lexemes =
        lexemes.map (PlacedLexeme.afterText config.tabStop) := by
  obtain ⟨houtcome, hlexemes⟩ := outcome_of_decomposesBetween hbody hafter htext h.within
  cases hreached : (first source).stepAll config (Move.ofText text) with
  | error e =>
      rw [hreached] at houtcome
      have hlimit := Layout.isLimit_of_stepAll hreached
      rw [h e houtcome] at hlimit
      cases hlimit
  | ok reached =>
      rw [hreached] at houtcome
      obtain ⟨rfl, -⟩ := h.within.of_stepAll hreached
      refine ⟨houtcome, ?_⟩
      rw [hlexemes _ hreached]
      exact List.map_congr_left fun entry _ => by rw [pos_first_nextAll]; rfl

/-- A fault at the start of a piece is the error, where the text before the piece ends. -/
theorem outcome_eq_error (h : MeetsNoLimit config source) {text inside : List Char}
    {lexemes : List (List Char × Lexeme)} {after : List UInt8} {fault : ReadFault}
    (hbody : body source = encode text ++ after)
    (hafter : Pieces.ofSource after = ⟨[], after, some fault⟩)
    (htext : DecomposesBetween after [] text lexemes)
    (hread : after.take fault.read = encode inside) (hanchor : fault.anchor = .pieceStart) :
    (ofSource config source).outcome =
      .error ⟨fault.kind, (Position.start.afterText config.tabStop text).capped⟩ := by
  have houtcome := (h.outcome_eq hbody hafter htext).1
  rw [finish_fault hread] at houtcome
  cases hstop : ((first source).nextAll config (Move.ofText text)).stepAll config
      (Move.ofText inside) with
  | error e =>
      rw [hstop] at houtcome
      have hlimit := Layout.isLimit_of_stepAll hstop
      rw [h e houtcome] at hlimit
      cases hlimit
  | ok stop =>
      rw [hstop, hanchor] at houtcome
      rw [houtcome, ← pos_first_nextAll config source]
      rfl

/-- What a source decomposes into, and what is cut from the bytes after it, is read. -/
theorem lexemes_eq (h : MeetsNoLimit config source) {text : List Char}
    {lexemes : List (List Char × Lexeme)} {after : List UInt8}
    (hbody : body source = encode text ++ after) (htext : DecomposesBetween after [] text lexemes) :
    ∃ rest later, after = encode rest ++ (Pieces.ofSource after).remaining ∧
      DecomposesBetween (Pieces.ofSource after).remaining text rest later ∧
      (ofSource config source).lexemes =
        (lexemes ++ later).map (PlacedLexeme.afterText config.tabStop) := by
  obtain ⟨rest, later, hafter, hrest⟩ := Pieces.exists_decomposesBetween text after
  refine ⟨rest, later, hafter, hrest, ?_⟩
  rw [hafter] at htext
  rw [hafter, ← List.append_assoc, ← encode_append] at hbody
  exact (h.outcome_eq hbody (Pieces.ofSource_remaining after) (htext.append hrest)).2

end MeetsNoLimit

end Reading

/-! ## Words -/

theorem LexicalGrammar.LeadsWithZero.not_isLiteral {word : List UInt8} (h : LeadsWithZero word)
    (value : IntegerValue String) : ¬ IsLiteral word value := by
  obtain ⟨mark, tail, rfl, hmark⟩ := h
  rw [Number.isLiteral_zero_cons_iff]
  simp_all

/-- The first byte of a number is a digit. -/
theorem Number.isDigit_of_head? {word : List UInt8}
    (h : ∃ head value, word.head? = some head ∧ IsDigit 10 head value) :
    ∃ head tail, word = head :: tail ∧ isDigit head = true := by
  obtain ⟨head, value, hhead, hdigit⟩ := h
  obtain ⟨tail, rfl⟩ := List.head?_eq_some_iff.mp hhead
  have hvalue := (digit?_eq_some 10 head value).mp (digit?_eq_some_iff.mpr hdigit)
  exact ⟨head, tail, rfl, (isDigit_iff head).mpr (by omega)⟩

/-- A word that is no literal is the fault of the reader. -/
theorem Pieces.ofSource_of_isRun {word after : List UInt8} (hrun : IsRun word after)
    (hdigit : ∃ head value, word.head? = some head ∧ IsDigit 10 head value) {fault : ReadFault}
    (hread : Number.read word = .error fault) :
    ofSource (word ++ after) = ⟨[], word ++ after, some fault⟩ := by
  obtain ⟨head, tail, rfl, hhead⟩ := Number.isDigit_of_head? hdigit
  have hword : head :: (tail ++ after).takeWhile isWordByte = head :: tail :=
    ((isRun_cons_iff (hrun.1 head (List.mem_cons_self ..)) rfl).mp hrun).1.symm
  have hfind : PieceEnd.find head (tail ++ after) = .error fault := by
    rw [PieceEnd.find_number hhead, hword, hread]
    rfl
  exact ofSource_cons_of_error hfind

section Runs

variable {config : LayoutConfig} {source : List UInt8} {before : List Char}
  {word after : List UInt8} {lexemes : List (List Char × Lexeme)}

/-- A literal is one lexeme where the text before it ends, and the bytes after it are read on
their own. -/
theorem Reading.MeetsNoLimit.lexemes_of_isLiteral (h : MeetsNoLimit config source)
    (hbody : body source = encode before ++ (word ++ after))
    (hbefore : DecomposesBetween (word ++ after) [] before lexemes) (hrun : IsRun word after)
    {value : IntegerValue String} (hvalue : IsLiteral word value) :
    ∃ rest later, after = encode rest ++ (Pieces.ofSource after).remaining ∧
      DecomposesBetween (Pieces.ofSource after).remaining (before ++ word.map asChar) rest later ∧
      (ofSource config source).lexemes =
        (lexemes ++ (before, .ofInt value) :: later).map
          (PlacedLexeme.afterText config.tabStop) := by
  have hword : encode (word.map asChar) = word :=
    encode_map_asChar fun byte hbyte => (hrun.1 byte hbyte).toNat_lt
  have hlexeme : IsLexeme (encode (word.map asChar)) after (.ofInt value) := by
    rw [hword]
    exact .literal hrun hvalue
  have hliteral : DecomposesBetween after before (word.map asChar ++ []) [(before, .ofInt value)] :=
    .lexeme _ hlexeme (.nil _)
  rw [List.append_nil] at hliteral
  rw [← hword] at hbefore
  rw [← hword, ← List.append_assoc, ← encode_append] at hbody
  obtain ⟨rest, later, hrest, hlater, hlexemes⟩ := h.lexemes_eq hbody (hbefore.append hliteral)
  exact ⟨rest, later, hrest, hlater, by rw [hlexemes, List.append_assoc]; rfl⟩

/-- A run that is no number is an error where the text before it ends. -/
theorem Reading.MeetsNoLimit.outcome_of_read (h : MeetsNoLimit config source)
    (hbody : body source = encode before ++ (word ++ after))
    (hbefore : DecomposesBetween (word ++ after) [] before lexemes) (hrun : IsRun word after)
    (hdigit : ∃ head value, word.head? = some head ∧ IsDigit 10 head value) {fault : ReadFault}
    (hread : Number.read word = .error fault) :
    (ofSource config source).outcome =
      .error ⟨fault.kind, (Position.start.afterText config.tabStop before).capped⟩ := by
  have htake : (word ++ after).take fault.read = encode ((word.take fault.read).map asChar) := by
    rw [List.take_append_of_le_length (Number.read_le_of_read hread), encode_map_asChar]
    exact fun byte hbyte => (hrun.1 byte (List.mem_of_mem_take hbyte)).toNat_lt
  exact h.outcome_eq_error hbody (Pieces.ofSource_of_isRun hrun hdigit hread) hbefore htake
    (Number.read_eq_error hread).1

end Runs

/-- Tokens spell the lexemes of a source one by one. -/
theorem exists_getElem?_of_lexemes {names : Interner hash} (hnames : names.WellFormed)
    {config : LayoutConfig} {source : List UInt8}
    (hroom : (tokenize config source names).2.size < 2 ^ 32) {index : Nat} {placed : PlacedLexeme}
    (hplaced : (Reading.ofSource config source).lexemes[index]? = some placed)
    {tokens : List Token} (hok : (tokenize config source names).1 = .ok tokens) :
    ∃ token, tokens[index]? = some token ∧
      token.placed? (tokenize config source names).2 = some placed := by
  obtain ⟨-, spelled, hmap, houtcome⟩ := tokenize_collects hnames hroom
  rw [houtcome] at hok
  obtain ⟨stop, -, rfl⟩ := Except.map_eq_ok_iff.mp hok
  have htoken : (spelled.map (Token.placed? (tokenize config source names).2))[index]? =
      some (some placed) := by
    rw [hmap, List.getElem?_map, hplaced]
    rfl
  rw [List.getElem?_map] at htoken
  obtain ⟨token, hget, htoken⟩ := Option.map_eq_some_iff.mp htoken
  have hindex := (List.getElem?_eq_some_iff.mp hget).1
  exact ⟨token, (List.getElem?_append_left hindex).trans hget, htoken⟩

/-- Where no limit is met, a run that starts with a digit is read as a whole.

A literal is one token at the start of the run: it has the value of its digits, which are the run
without the mark of a radix and without separators. The bytes after the run are read on their own.
A zero with another byte after it than the mark of a radix is an error of its own, and so is
whatever else is no literal, both at the start of the run.

Words of 64 bits hold every value on the way, or the value is not small in the end. -/
theorem tokenize_run_of_digit {config : LayoutConfig} {source : List UInt8} {names : Interner hash}
    (hnames : names.WellFormed) (hroom : (tokenize config source names).2.size < 2 ^ 32)
    (hlimits : ∀ e, (tokenize config source names).1 = .error e → e.kind.isLimit = false)
    {before : List Char} {word after : List UInt8} {lexemes : List (List Char × Lexeme)}
    (hbody : Reading.body source = encode before ++ (word ++ after))
    (hbefore : DecomposesBetween (word ++ after) [] before lexemes) (hrun : IsRun word after)
    (hdigit : ∃ head value, word.head? = some head ∧ IsDigit 10 head value) :
    (∀ value, IsLiteral word value →
      (∃ mark radix bytes, IsRadixMark mark radix ∧ word = mark ++ bytes ∧
        HasValue radix (unseparated bytes) value) ∧
      (∃ rest later, after = encode rest ++ (Pieces.ofSource after).remaining ∧
        DecomposesBetween (Pieces.ofSource after).remaining (before ++ word.map asChar) rest later ∧
        (Reading.ofSource config source).lexemes =
          (lexemes ++ (before, .ofInt value) :: later).map
            (PlacedLexeme.afterText config.tabStop)) ∧
      ∀ tokens, (tokenize config source names).1 = .ok tokens →
        ∃ token, tokens[lexemes.length]? = some token ∧
          token.placed? (tokenize config source names).2 =
            some ⟨(Position.start.afterText config.tabStop before).capped, .ofInt value⟩) ∧
    (LeadsWithZero word → (tokenize config source names).1 =
      .error ⟨.leadingZero, (Position.start.afterText config.tabStop before).capped⟩) ∧
    ((∀ value, ¬ IsLiteral word value) → ¬ LeadsWithZero word →
      (tokenize config source names).1 =
        .error ⟨.badIntLiteral, (Position.start.afterText config.tabStop before).capped⟩) ∧
    ∀ radix digits, radix ≤ 16 →
      (Number.smallWord? radix digits).map UInt64.toNat = Number.smallValue? radix digits := by
  have hmeets : Reading.MeetsNoLimit config source := fun e he =>
    hlimits e (tokenize_eq_error_iff.mpr he)
  have herror : (∀ value, ¬ IsLiteral word value) → ∃ fault, Number.read word = .error fault ∧
      (tokenize config source names).1 =
        .error ⟨fault.kind, (Position.start.afterText config.tabStop before).capped⟩ := by
    intro hnone
    cases hread : Number.read word with
    | ok value => exact absurd (Number.read_eq_ok_iff.mp hread) (hnone value)
    | error fault =>
        exact ⟨fault, rfl, tokenize_eq_error_iff.mpr
          (hmeets.outcome_of_read hbody hbefore hrun hdigit hread)⟩
  refine ⟨fun value hvalue => ?_, fun hzero => ?_, fun hnone hzero => ?_,
    fun radix digits hradix => Number.toNat_smallWord? hradix digits⟩
  · have hlexemes := hmeets.lexemes_of_isLiteral hbody hbefore hrun hvalue
    refine ⟨hvalue.exists_mark, hlexemes, fun tokens hok => ?_⟩
    obtain ⟨rest, later, -, -, hlexemes⟩ := hlexemes
    exact exists_getElem?_of_lexemes hnames hroom (by rw [hlexemes]; simp [PlacedLexeme.afterText])
      hok
  · obtain ⟨fault, hread, htokenize⟩ := herror hzero.not_isLiteral
    obtain ⟨-, -, ⟨hkind, -⟩ | ⟨-, hmarked⟩⟩ := Number.read_eq_error hread
    · rw [htokenize, hkind]
    · exact absurd hzero hmarked
  · obtain ⟨fault, hread, htokenize⟩ := herror hnone
    obtain ⟨-, -, ⟨-, hmarked⟩ | ⟨hkind, -⟩⟩ := Number.read_eq_error hread
    · exact absurd hmarked hzero
    · rw [htokenize, hkind]

/-- A hexadecimal literal of 64 bits, with a leading zero. -/
def oversizedRun : List UInt8 :=
  [0x30, 0x58, 0x30, 0x5F, 0x66, 0x46, 0x66, 0x46, 0x66, 0x46, 0x66, 0x46, 0x5F, 0x66, 0x46, 0x66,
    0x46, 0x66, 0x46, 0x66, 0x46]

theorem tokenize_run_of_digit_oversized :
    Interner.noNames.WellFormed ∧
    (tokenize {} ([0x78, 0x2B] ++ (oversizedRun ++ [0x3B])) .noNames).2.size < 2 ^ 32 ∧
    (∀ e, (tokenize {} ([0x78, 0x2B] ++ (oversizedRun ++ [0x3B])) .noNames).1 = .error e →
      e.kind.isLimit = false) ∧
    Reading.body ([0x78, 0x2B] ++ (oversizedRun ++ [0x3B])) =
      encode ['x', '+'] ++ (oversizedRun ++ [0x3B]) ∧
    DecomposesBetween (oversizedRun ++ [0x3B]) [] ['x', '+']
      [([], .ofWord "x"), (['x'], .ofSymbol .plus)] ∧
    IsRun oversizedRun [0x3B] ∧
    (∃ head value, oversizedRun.head? = some head ∧ IsDigit 10 head value) ∧
    ∃ tokens token,
      (tokenize {} ([0x78, 0x2B] ++ (oversizedRun ++ [0x3B])) .noNames).1 = .ok tokens ∧
      tokens[2]? = some token ∧
      token.placed? (tokenize {} ([0x78, 0x2B] ++ (oversizedRun ++ [0x3B])) .noNames).2 =
        some ⟨⟨1, 3⟩, .ofInt (.oversized "0fFfFfFfFfFfFfFfF" 16)⟩ := by
  have hroom :
      (tokenize {} ([0x78, 0x2B] ++ (oversizedRun ++ [0x3B])) .noNames).2.size < 2 ^ 32 := by
    decide +kernel
  obtain ⟨tokens, hok⟩ : ∃ tokens,
      (tokenize {} ([0x78, 0x2B] ++ (oversizedRun ++ [0x3B])) .noNames).1 = .ok tokens :=
    ⟨[⟨.identifier, ⟨1, 1⟩, .ident ⟨0⟩⟩, ⟨.symbol .plus, ⟨1, 2⟩, .none⟩,
      ⟨.intLiteral, ⟨1, 3⟩, .int (.oversized ⟨1⟩ 16)⟩, ⟨.symbol .semicolon, ⟨1, 24⟩, .none⟩,
      .endOfFile ⟨1, 25⟩], by decide +kernel⟩
  have hlimits : ∀ e, (tokenize {} ([0x78, 0x2B] ++ (oversizedRun ++ [0x3B])) .noNames).1 =
      .error e →
      e.kind.isLimit = false := fun e herror => by cases hok.symm.trans herror
  have hbody : Reading.body ([0x78, 0x2B] ++ (oversizedRun ++ [0x3B])) =
      encode ['x', '+'] ++ (oversizedRun ++ [0x3B]) := rfl
  have hrun : IsRun oversizedRun [0x3B] := by
    simp only [IsRun, inWord_iff]
    decide +kernel
  have hname : IsPiece [0x78] (0x2B :: (oversizedRun ++ [0x3B])) (some (.ofWord "x")) :=
    (PieceEnd.find_eq_ok_iff rfl).mp (by decide +kernel)
  have hplus : IsPiece [0x2B] (oversizedRun ++ [0x3B]) (some (.ofSymbol .plus)) :=
    (PieceEnd.find_eq_ok_iff rfl).mp (by decide +kernel)
  have hbefore : DecomposesBetween (oversizedRun ++ [0x3B]) [] ['x', '+']
      [([], .ofWord "x"), (['x'], .ofSymbol .plus)] :=
    .lexeme ['x'] hname (.lexeme ['+'] hplus (.nil _))
  have hdigit : ∃ head value, oversizedRun.head? = some head ∧ IsDigit 10 head value :=
    ⟨0x30, 0, rfl, .decimal 0 (by decide) (by decide)⟩
  have hliteral : IsLiteral oversizedRun (.oversized "0fFfFfFfFfFfFfFfF" 16) :=
    Number.read_eq_ok_iff.mp (by decide +kernel)
  obtain ⟨-, -, htoken⟩ := (tokenize_run_of_digit Interner.noNames_wellFormed hroom hlimits hbody
    hbefore hrun hdigit).1 _ hliteral
  obtain ⟨token, hget, hplaced⟩ := htoken tokens hok
  exact ⟨Interner.noNames_wellFormed, hroom, hlimits, hbody, hbefore, hrun, hdigit, tokens, token,
    hok, hget, hplaced⟩

end FrontEnd
