import FrontEnd.Proofs.Scanner.Words

/-! # Symbols are scanned as the longest ones

From its first byte a scanner knows the symbols that may stand at a place, and takes the longest
of them. -/

namespace FrontEnd.Scanner

open LexicalGrammar

variable {config : LayoutConfig} {before text after rest : List UInt8} {l : Layout} {byte : UInt8}

/-- The symbols of some forms that start with a byte, with their bytes. -/
def SymbolForms.spellings (byte : UInt8) : SymbolForms → List (Symbol × List UInt8)
  | .single plain => [(plain, [byte])]
  | .withEqual plain extended => [(plain, [byte]), (extended, [byte, 0x3D])]
  | .withArrow plain extended pointed =>
    [(plain, [byte]), (extended, [byte, 0x3D]), (pointed, [byte, 0x3E])]
  | .doubled plain extended twice twiceExtended =>
    [(plain, [byte]), (extended, [byte, 0x3D]), (twice, [byte, byte]),
     (twiceExtended, [byte, byte, 0x3D])]
  | .ranges plain closed halfOpen =>
    [(plain, [byte]), (closed, [byte, 0x2E, 0x2E]), (halfOpen, [byte, 0x2E, 0x3C])]

/-- The forms of a byte are all symbols that start with it. -/
structure FormsOf (byte : UInt8) (forms : SymbolForms) : Prop where
  plain : IsPlain byte
  ne_zero : byte ≠ 0
  bytes_eq : ∀ spelled ∈ forms.spellings byte, spelled.1.bytes = spelled.2
  mem : ∀ s : Symbol, s.bytes.head? = some byte → (s, s.bytes) ∈ forms.spellings byte

theorem formsOf_of_lookup {forms : SymbolForms} (h : symbolForms.lookup byte = some forms) :
    FormsOf byte forms := by
  have hall : ∀ entry ∈ symbolForms, IsPlain entry.1 ∧ entry.1 ≠ 0 ∧
      (∀ spelled ∈ entry.2.spellings entry.1, spelled.1.bytes = spelled.2) ∧
      ∀ s ∈ Symbol.all, s.bytes.head? = some entry.1 →
        (s, s.bytes) ∈ entry.2.spellings entry.1 := by decide +kernel
  obtain ⟨first, last, hentries, -⟩ := List.lookup_eq_some_iff.mp h
  obtain ⟨hplain, hzero, hbytes, hmem⟩ := hall (byte, forms) (by rw [hentries]; simp)
  exact ⟨hplain, hzero, hbytes, fun s => hmem s s.mem_all⟩

theorem longest?_of_lookup_eq_none (h : symbolForms.lookup byte = none) (rest : List UInt8) :
    Symbol.longest? (byte :: rest) = none := by
  have hall : ∀ s ∈ Symbol.all, ∃ entry ∈ symbolForms, s.bytes.head? = some entry.1 := by
    decide +kernel
  rw [Option.eq_none_iff_forall_ne_some]
  rintro ⟨s, text⟩ hlongest
  obtain ⟨rfl, hbegins, -⟩ := Symbol.longest?_eq_some_iff.mp hlongest
  obtain ⟨entry, hentry, hhead⟩ := hall s s.mem_all
  obtain ⟨tail, htail⟩ := List.head?_eq_some_iff.mp hhead
  rw [htail, List.cons_prefix_cons] at hbegins
  have hbyte := List.lookup_eq_none_iff.mp h entry hentry
  simp [hbegins.1] at hbyte

/-! ## The longest of some symbols -/

/-- In front of a source, a scanner takes the longest of some symbols. -/
def TakesLongest (config : LayoutConfig) (source : List UInt8)
    (spellings : List (Symbol × List UInt8)) (scan : Scanner → Except Halt (Scanner × Lexeme)) :
    Prop :=
  ∃ s text after, source = text ++ after ∧ (s, text) ∈ spellings ∧
    (∀ other ∈ spellings, other.2 <+: source → other.2.length ≤ text.length) ∧
    ∀ before l, scan (placed before source l) =
      scanned config before text after l >>= fun t => .ok (t, .ofSymbol s)

namespace TakesLongest

variable {source : List UInt8} {spellings more : List (Symbol × List UInt8)}
  {scan : Scanner → Except Halt (Scanner × Lexeme)}

/-- A symbol behind the first byte, which is a part of it. -/
theorem cons (hplain : IsPlain byte) (h : TakesLongest config rest spellings scan) :
    TakesLongest config (byte :: rest) (spellings.map fun spelled => (spelled.1, byte :: spelled.2))
      fun s => s.bump config >>= scan := by
  obtain ⟨s, text, after, rfl, hmem, hlongest, hscan⟩ := h
  refine ⟨s, byte :: text, after, rfl, List.mem_map_of_mem hmem, ?_, fun before l => ?_⟩
  · intro other hother hbegins
    obtain ⟨spelled, hspelled, rfl⟩ := List.mem_map.mp hother
    exact Nat.succ_le_succ (hlongest spelled hspelled (List.cons_prefix_cons.mp hbegins).2)
  · dsimp only
    rw [bump_placed hplain]
    exact bind_scanned (hplain.unsplit rfl) fun moved => hscan _ _

/-- Symbols that are not there, or are no longer than others that are, change nothing. -/
theorem mono (h : TakesLongest config source spellings scan) (hmore : spellings ⊆ more)
    (hother : ∀ other ∈ more, other.2 <+: source →
      ∃ spelled ∈ spellings, spelled.2 <+: source ∧ other.2.length ≤ spelled.2.length) :
    TakesLongest config source more scan := by
  obtain ⟨s, text, after, hsource, hmem, hlongest, hscan⟩ := h
  refine ⟨s, text, after, hsource, hmore hmem, fun other hmem hbegins => ?_, hscan⟩
  obtain ⟨spelled, hspelled, hstarts, hlength⟩ := hother other hmem hbegins
  exact hlength.trans (hlongest spelled hspelled hstarts)

theorem take (text after : List UInt8) (s : Symbol) (htext : ∀ byte ∈ text, IsPlain byte)
    (hmem : (s, text) ∈ spellings)
    (hlongest : ∀ other ∈ spellings, other.2 <+: text ++ after → other.2.length ≤ text.length) :
    TakesLongest config (text ++ after) spellings (Scanner.take config · text.length s) := by
  refine ⟨s, text, after, rfl, hmem, hlongest, fun before l => ?_⟩
  change (bumps config (placed before (text ++ after) l) text.length >>= _) = _
  rw [bumps_placed text htext]
  rfl

theorem congr {other : Scanner → Except Halt (Scanner × Lexeme)}
    (h : TakesLongest config source spellings scan)
    (hother : ∀ before l, other (placed before source l) = scan (placed before source l)) :
    TakesLongest config source spellings other := by
  obtain ⟨s, text, after, hsource, hmem, hlongest, hscan⟩ := h
  exact ⟨s, text, after, hsource, hmem, hlongest,
    fun before l => (hother before l).trans (hscan _ _)⟩

end TakesLongest

/-! ## Symbols of each form -/

theorem singleton_prefix_iff {mark : UInt8} {bytes : List UInt8} :
    [mark] <+: bytes ↔ bytes.head? = some mark := by
  cases bytes with
  | nil => simp
  | cons byte bytes => simp [List.cons_prefix_cons, eq_comm]

theorem takesLongest_orEqual (source : List UInt8) (plain extended : Symbol) :
    TakesLongest config source [(plain, []), (extended, [0x3D])]
      (orEqual config · plain extended) := by
  by_cases hequal : source.head? = some 0x3D
  · obtain ⟨after, rfl⟩ := List.head?_eq_some_iff.mp hequal
    have hplain : ∀ byte ∈ [0x3D], IsPlain byte := List.forall_mem_singleton.mpr (by decide)
    refine (TakesLongest.take [0x3D] after extended hplain (by simp) (by simp)).congr
      fun before l => ?_
    rw [orEqual, look_placed (Nat.zero_le 3), ok_bind]
    rfl
  · refine (TakesLongest.take [] source plain (by simp) (by simp) ?_).congr fun before l => ?_
    · simp [singleton_prefix_iff, hequal]
    · rw [orEqual, look_placed (Nat.zero_le 3), ok_bind]
      exact if_neg (mt (getD_eq_mark_iff (by decide)).mp hequal)

theorem takesLongest_orTwice (hplain : IsPlain byte) (hzero : byte ≠ 0) (source : List UInt8)
    (plain extended twice twiceExtended : Symbol) :
    TakesLongest config source
      [(plain, []), (extended, [0x3D]), (twice, [byte]), (twiceExtended, [byte, 0x3D])]
      (orTwice config byte · plain extended twice twiceExtended) := by
  have hlook : ∀ before l,
      (placed before source l).orTwice config byte plain extended twice twiceExtended =
        if source.getD 0 0 = byte then
          (placed before source l).bump config >>= fun s => s.orEqual config twice twiceExtended
        else (placed before source l).orEqual config plain extended := fun before l => by
    rw [orTwice, look_placed (Nat.zero_le 3), ok_bind]
  by_cases htwice : source.head? = some byte
  · obtain ⟨rest, rfl⟩ := List.head?_eq_some_iff.mp htwice
    refine (((takesLongest_orEqual rest twice twiceExtended).cons hplain).mono (by simp) ?_).congr
      fun before l => (hlook before l).trans (if_pos rfl)
    simp [List.cons_prefix_cons]
  · have hnot : ∀ more, ¬ byte :: more <+: source := by
      rintro more ⟨after, rfl⟩
      exact htwice rfl
    refine ((takesLongest_orEqual source plain extended).mono (by simp) ?_).congr fun before l =>
      (hlook before l).trans (if_neg (mt (getD_eq_mark_iff hzero).mp htwice))
    simp [hnot]

section Forms

variable (hplain : IsPlain byte) (plain extended : Symbol)

include hplain

theorem takesLongest_single : TakesLongest config (byte :: rest)
    ((SymbolForms.single plain).spellings byte) (symbol config · (.single plain)) :=
  TakesLongest.take [byte] rest plain (by simpa using hplain) (by simp [SymbolForms.spellings])
    (by simp [SymbolForms.spellings])

theorem takesLongest_withEqual : TakesLongest config (byte :: rest)
    ((SymbolForms.withEqual plain extended).spellings byte)
    (symbol config · (.withEqual plain extended)) :=
  (takesLongest_orEqual rest plain extended).cons hplain

theorem takesLongest_withArrow (pointed : Symbol) : TakesLongest config (byte :: rest)
    ((SymbolForms.withArrow plain extended pointed).spellings byte)
    (symbol config · (.withArrow plain extended pointed)) := by
  have hlook : ∀ before l,
      (placed before (byte :: rest) l).symbol config (.withArrow plain extended pointed) =
        if rest.getD 0 0 = 0x3D then (placed before (byte :: rest) l).take config 2 extended
        else if rest.getD 0 0 = 0x3E then (placed before (byte :: rest) l).take config 2 pointed
        else (placed before (byte :: rest) l).take config 1 plain := fun before l => by
    rw [Scanner.symbol, look_placed (by decide), ok_bind]
    rfl
  by_cases hequal : rest.head? = some 0x3D
  · obtain ⟨after, rfl⟩ := List.head?_eq_some_iff.mp hequal
    refine (TakesLongest.take [byte, 0x3D] after extended ?_ ?_ ?_).congr fun before l =>
      (hlook before l).trans (if_pos rfl)
    · simpa using ⟨hplain, by decide⟩
    · simp [SymbolForms.spellings]
    · simp [SymbolForms.spellings]
  by_cases hpointed : rest.head? = some 0x3E
  · obtain ⟨after, rfl⟩ := List.head?_eq_some_iff.mp hpointed
    refine (TakesLongest.take [byte, 0x3E] after pointed ?_ ?_ ?_).congr fun before l =>
      (hlook before l).trans rfl
    · simpa using ⟨hplain, by decide⟩
    · simp [SymbolForms.spellings]
    · simp [SymbolForms.spellings]
  · refine (TakesLongest.take [byte] rest plain (by simpa using hplain) ?_ ?_).congr fun before l =>
      (hlook before l).trans ((if_neg (mt (getD_eq_mark_iff (by decide)).mp hequal)).trans
        (if_neg (mt (getD_eq_mark_iff (by decide)).mp hpointed)))
    · simp [SymbolForms.spellings]
    · simp [SymbolForms.spellings, singleton_prefix_iff, hequal, hpointed]

theorem takesLongest_doubled (hzero : byte ≠ 0) (twice twiceExtended : Symbol) :
    TakesLongest config (byte :: rest)
      ((SymbolForms.doubled plain extended twice twiceExtended).spellings byte)
      (symbol config · (.doubled plain extended twice twiceExtended)) := by
  refine ((takesLongest_orTwice hplain hzero rest plain extended twice twiceExtended).cons
    hplain).congr fun before l => ?_
  rw [Scanner.symbol, look_placed (Nat.zero_le 3), ok_bind]
  rfl

theorem takesLongest_ranges (closed halfOpen : Symbol) : TakesLongest config (byte :: rest)
    ((SymbolForms.ranges plain closed halfOpen).spellings byte)
    (symbol config · (.ranges plain closed halfOpen)) := by
  have hlook : ∀ before l,
      (placed before (byte :: rest) l).symbol config (.ranges plain closed halfOpen) =
        if rest.getD 0 0 = 0x2E ∧ rest.getD 1 0 = 0x2E then
          (placed before (byte :: rest) l).take config 3 closed
        else if rest.getD 0 0 = 0x2E ∧ rest.getD 1 0 = 0x3C then
          (placed before (byte :: rest) l).take config 3 halfOpen
        else (placed before (byte :: rest) l).take config 1 plain := fun before l => by
    rw [Scanner.symbol, look_placed (by decide), look_placed (by decide), ok_bind]
    rfl
  have hpair : ∀ {mark : UInt8}, mark ≠ 0 → (rest.getD 0 0 = 0x2E ∧ rest.getD 1 0 = mark ↔
      [0x2E, mark] <+: rest) := fun {mark} hmark => by
    cases rest with
    | nil => simp
    | cons first tail =>
        rw [List.getD_cons_succ, getD_eq_mark_iff hmark, List.cons_prefix_cons,
          singleton_prefix_iff, List.getD_cons_zero, eq_comm]
  by_cases hclosed : [0x2E, 0x2E] <+: rest
  · obtain ⟨after, rfl⟩ := hclosed
    refine (TakesLongest.take [byte, 0x2E, 0x2E] after closed ?_ ?_ ?_).congr fun before l =>
      (hlook before l).trans rfl
    · simpa using ⟨hplain, by decide⟩
    · simp [SymbolForms.spellings]
    · simp [SymbolForms.spellings]
  by_cases hhalfOpen : [0x2E, 0x3C] <+: rest
  · obtain ⟨after, rfl⟩ := hhalfOpen
    refine (TakesLongest.take [byte, 0x2E, 0x3C] after halfOpen ?_ ?_ ?_).congr fun before l =>
      (hlook before l).trans rfl
    · simpa using ⟨hplain, by decide, by decide⟩
    · simp [SymbolForms.spellings]
    · simp [SymbolForms.spellings]
  · refine (TakesLongest.take [byte] rest plain (by simpa using hplain) ?_ ?_).congr fun before l =>
      (hlook before l).trans ((if_neg (mt (hpair (by decide)).mp hclosed)).trans
        (if_neg (mt (hpair (by decide)).mp hhalfOpen)))
    · simp [SymbolForms.spellings]
    · simp [SymbolForms.spellings, hclosed, hhalfOpen]

/-- Whatever symbols start with its first byte, a scanner takes the longest of them. -/
theorem takesLongest_symbol (hzero : byte ≠ 0) (forms : SymbolForms) :
    TakesLongest config (byte :: rest) (forms.spellings byte) (symbol config · forms) := by
  cases forms with
  | single plain => exact takesLongest_single hplain plain
  | withEqual plain extended => exact takesLongest_withEqual hplain plain extended
  | withArrow plain extended pointed => exact takesLongest_withArrow hplain plain extended pointed
  | doubled plain extended twice twiceExtended =>
      exact takesLongest_doubled hplain plain extended hzero twice twiceExtended
  | ranges plain closed halfOpen => exact takesLongest_ranges hplain plain closed halfOpen

end Forms

/-- The symbol that a scanner takes is the longest of all. -/
theorem TakesLongest.longest?_eq {forms : SymbolForms}
    {scan : Scanner → Except Halt (Scanner × Lexeme)} (hforms : FormsOf byte forms)
    (h : TakesLongest config (byte :: rest) (forms.spellings byte) scan) :
    ∃ s text after, byte :: rest = text ++ after ∧
      Symbol.longest? (byte :: rest) = some (s, text) ∧
      ∀ before l, scan (placed before (byte :: rest) l) =
        scanned config before text after l >>= fun t => .ok (t, .ofSymbol s) := by
  obtain ⟨s, text, after, hsource, hmem, hlongest, hscan⟩ := h
  refine ⟨s, text, after, hsource, Symbol.longest?_eq_some_iff.mpr
    ⟨(hforms.bytes_eq _ hmem).symm, ⟨after, hsource.symm⟩, fun other hother => ?_⟩, hscan⟩
  obtain ⟨head, tail, hbytes, -⟩ := other.exists_bytes_eq_cons
  have hhead : other.bytes.head? = some byte := by
    rw [hbytes, List.cons_prefix_cons] at hother
    rw [hbytes, hother.1]
    rfl
  exact hlongest _ (hforms.mem other hhead) hother

/-- A symbol is taken exactly as the reader of pieces takes it. -/
theorem mark_of_longest? {s : Symbol} (h : Symbol.longest? (byte :: rest) = some (s, text)) :
    ∃ after, byte :: rest = text ++ after ∧ ∀ before l,
      (placed before (byte :: rest) l).mark config byte =
        scanned config before text after l >>= fun t => .ok (t, .ofSymbol s) := by
  cases hforms : symbolForms.lookup byte with
  | none =>
      rw [longest?_of_lookup_eq_none hforms] at h
      cases h
  | some forms =>
      have hall := formsOf_of_lookup hforms
      have htakes : TakesLongest config (byte :: rest) (forms.spellings byte)
          (symbol config · forms) := takesLongest_symbol hall.plain hall.ne_zero forms
      obtain ⟨taken, bytes, after, hsource, hlongest, hscan⟩ := htakes.longest?_eq hall
      obtain ⟨rfl, rfl⟩ := Prod.mk.inj (Option.some.inj (h.symm.trans hlongest))
      refine ⟨after, hsource, fun before l => ?_⟩
      rw [mark, hforms]
      exact hscan before l

theorem mark_of_longest?_eq_none (h : Symbol.longest? (byte :: rest) = none) :
    (placed before (byte :: rest) l).mark config byte =
      match Utf8.decode (byte :: rest) with
      | some (codePoint, _) => .error (.error ⟨.unexpectedCharacter codePoint, l.pos⟩)
      | none => .error (.error ⟨.badEncoding, l.pos⟩) := by
  cases hforms : symbolForms.lookup byte with
  | none =>
      rw [mark, hforms]
      dsimp only
      split_ifs with hsmall
      · rw [Utf8.decode_ascii (UInt8.lt_iff_toNat_lt.mp hsmall)]
        rfl
      · rw [decode_placed]
        cases Utf8.decode (byte :: rest) <;> rfl
  | some forms =>
      have hall := formsOf_of_lookup hforms
      have htakes : TakesLongest config (byte :: rest) (forms.spellings byte)
          (symbol config · forms) := takesLongest_symbol hall.plain hall.ne_zero forms
      obtain ⟨taken, bytes, after, -, hlongest, -⟩ := htakes.longest?_eq hall
      rw [h] at hlongest
      cases hlongest

end FrontEnd.Scanner
