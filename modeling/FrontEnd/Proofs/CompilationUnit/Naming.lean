import FrontEnd.Proofs.Session

/-! # Names are canonical

Whatever makes names in a unit, they are the places of its texts in the order in which those were
first met. So names are equal exactly if their texts are, and keep them. -/

namespace FrontEnd

/-! ## Names of tokens -/

/-- The name in a token that spells a lexeme is that of the text in the lexeme. -/
theorem Token.text?_name? {hash : String → UInt32} {names : Interner hash} {token : Token}
    {placed : PlacedLexeme} (h : token.placed? names = some placed) :
    token.name?.toList.map names.text? = placed.lexeme.value.text?.toList.map some := by
  obtain ⟨kind, pos, value⟩ := token
  obtain ⟨pos', kind', value'⟩ := placed
  have hvalue : value.spelled? names = some value' := by
    cases hspelled : value.spelled? names <;> simp_all [placed?, lexeme?]
  cases value with
  | none =>
      cases hvalue
      rfl
  | ident name =>
      obtain ⟨text, htext, rfl⟩ := Option.map_eq_some_iff.mp hvalue
      simp [name?, Payload.text?, htext]
  | int number =>
      cases number with
      | small number =>
          cases hvalue
          rfl
      | oversized digits radix =>
          obtain ⟨text, htext, rfl⟩ := Option.map_eq_some_iff.mp hvalue
          simp [name?, Payload.text?, htext]

theorem map_text?_names {hash : String → UInt32} {names : Interner hash} {tokens : List Token}
    {lexemes : List PlacedLexeme} (h : tokens.map (Token.placed? names) = lexemes.map some) :
    (tokens.filterMap Token.name?).map names.text? = (PlacedLexeme.texts lexemes).map some := by
  induction tokens generalizing lexemes with
  | nil =>
      obtain rfl := List.map_eq_nil_iff.mp h.symm
      rfl
  | cons token tokens ih =>
      obtain ⟨placed, lexemes, rfl, hplaced, hrest⟩ := List.map_eq_cons_iff.mp h.symm
      have hcons : (token :: tokens).filterMap Token.name? =
          token.name?.toList ++ tokens.filterMap Token.name? := by
        rw [List.filterMap_cons]
        cases token.name? <;> rfl
      rw [hcons, PlacedLexeme.texts_cons, List.map_append, List.map_append, ih hrest.symm,
        Token.text?_name? hplaced.symm]

/-! ## What makes names -/

open CompilationUnit

variable {hash : Hasher}

/-- An operation of a unit that interns texts. -/
inductive Naming where
  | intern (text : String)
  | addSource (path : String) (bytes : List UInt8)
  | tokenizeSource (config : LayoutConfig) (source : SourceId)
  | prelude

namespace Naming

/-- The unit that an operation leaves. -/
def unit (u : CompilationUnit hash) : Naming → CompilationUnit hash
  | intern text => (u.intern text).2
  | addSource path bytes => (u.addSource path bytes).2
  | tokenizeSource config source => (u.tokenizeSource config source).2
  | prelude => (Prelude.standard u).2

/-- The names that an operation hands out. A source that has no tokens hands out none. -/
def names (u : CompilationUnit hash) : Naming → List Name
  | intern text => [(u.intern text).1]
  | addSource path bytes =>
    let (source, v) := u.addSource path bytes
    [(v.source source).path]
  | tokenizeSource config source =>
    match (u.tokenizeSource config source).1 with
    | .ok tokens => tokens.filterMap Token.name?
    | .error _ => []
  | prelude => (Prelude.standard u).1.entries.map PreludeName.name

/-- The texts that an operation interns. Those of a source are interned up to its error. -/
def texts (u : CompilationUnit hash) : Naming → List String
  | intern text => [text]
  | addSource path _ => [shownPath path]
  | tokenizeSource config source =>
    PlacedLexeme.texts (Reading.ofSource config (u.source source).content.bytes).lexemes
  | prelude => [BaseType.int32.name]

/-- The texts that the names of an operation are made for. -/
def spelled (u : CompilationUnit hash) : Naming → List String
  | tokenizeSource config source =>
    match (u.tokenizeSource config source).1 with
    | .ok _ => (tokenizeSource config source).texts u
    | .error _ => []
  | naming => naming.texts u

/-- What operations have, one after the other. -/
def along {α : Type} (f : CompilationUnit hash → Naming → List α) (u : CompilationUnit hash) :
    List Naming → List α
  | [] => []
  | naming :: rest => f u naming ++ along f (naming.unit u) rest

/-- The unit that operations leave. -/
def after (u : CompilationUnit hash) (namings : List Naming) : CompilationUnit hash :=
  namings.foldl unit u

variable {u : CompilationUnit hash}

theorem size_le (u : CompilationUnit hash) (naming : Naming) :
    u.names.size ≤ (naming.unit u).names.size := by
  cases naming with
  | intern text => exact (u.names.size_intern text).1
  | addSource path bytes => exact (u.names.size_intern (shownPath path)).1
  | tokenizeSource config source =>
      exact (size_tokenize config (u.source source).content.bytes u.names).1
  | prelude => exact (u.names.size_intern BaseType.int32.name).1

theorem size_le_after (u : CompilationUnit hash) (namings : List Naming) :
    u.names.size ≤ (after u namings).names.size := by
  induction namings generalizing u with
  | nil => exact Nat.le_refl _
  | cons naming rest ih => exact Nat.le_trans (size_le u naming) (ih (naming.unit u))

/-- An operation adds its texts, and its names have the texts that they are made for. -/
theorem unit_spec (h : u.names.WellFormed) (naming : Naming)
    (hroom : (naming.unit u).names.size < 2 ^ 32) :
    u.names.Collects (naming.texts u) (naming.unit u).names ∧
      (naming.names u).map (naming.unit u).names.text? = (naming.spelled u).map some := by
  cases naming with
  | intern text =>
      have hinterned := h.interned text hroom
      exact ⟨hinterned.collects h, congrArg (fun text => [text]) hinterned.text_eq⟩
  | addSource path bytes =>
      have hinterned := h.interned (shownPath path) hroom
      refine ⟨hinterned.collects h, ?_⟩
      have hpath : ((u.addSource path bytes).2.source (u.addSource path bytes).1).path =
          (u.names.intern (shownPath path)).1 := by
        simp [CompilationUnit.addSource, source, CompilationUnit.intern]
      simp only [names, hpath]
      exact congrArg (fun text => [text]) hinterned.text_eq
  | tokenizeSource config source =>
      obtain ⟨hcollects, tokens, hplaced, hanswer⟩ := tokenizeSource_collects h hroom
      refine ⟨hcollects, ?_⟩
      simp only [names, spelled, hanswer]
      cases (Reading.ofSource config (u.source source).content.bytes).outcome with
      | error e => rfl
      | ok stop =>
          have hend : [Token.endOfFile stop].filterMap Token.name? = [] := rfl
          simp only [Except.map, List.filterMap_append, hend, List.append_nil]
          exact map_text?_names hplaced
  | prelude =>
      have hinterned := h.interned BaseType.int32.name hroom
      exact ⟨hinterned.collects h, congrArg (fun text => [text]) hinterned.text_eq⟩

/-- Operations add all their texts, and their names have the texts that they were made for in the
unit that is left. -/
theorem after_spec (h : u.names.WellFormed) (namings : List Naming)
    (hroom : (after u namings).names.size < 2 ^ 32) :
    u.names.Collects (along texts u namings) (after u namings).names ∧
      (along names u namings).map (after u namings).names.text? =
        (along spelled u namings).map some := by
  induction namings generalizing u with
  | nil => exact ⟨h.collects_nil, rfl⟩
  | cons naming rest ih =>
      obtain ⟨hfirst, hnames⟩ := unit_spec h naming
        (Nat.lt_of_le_of_lt (size_le_after (naming.unit u) rest) hroom)
      obtain ⟨hrest, hlater⟩ := ih hfirst.wellFormed hroom
      refine ⟨hfirst.trans hrest, ?_⟩
      have hkept : (naming.names u).map (after u (naming :: rest)).names.text? =
          (naming.names u).map (naming.unit u).names.text? := by
        refine List.map_congr_left fun name hname => ?_
        have htext := List.mem_map_of_mem (f := (naming.unit u).names.text?) hname
        rw [hnames] at htext
        obtain ⟨text, -, htext⟩ := List.mem_map.mp htext
        rw [← htext]
        exact (hrest.extends hfirst.wellFormed).text? htext.symm
      rw [along, along, List.map_append, List.map_append, hkept, hnames]
      exact congrArg _ hlater

end Naming

/-! ## Canonical names -/

/-- The names of an interner that met some texts, where some were handed out for texts of theirs. -/
structure Interner.Canonical {hash : String → UInt32} (names : Interner hash) (met : List String)
    (handed : List Name) (spelled : List String) : Prop where
  /-- Texts are numbered from one in the order in which they were first met. -/
  numbered : ∀ name text, names.lookup name = .ok text ↔ met.eraseDups[name.number - 1]? = some text
  size_eq : names.size = met.eraseDups.length
  lookup_handed : List.Forall₂ (fun name text => names.lookup name = .ok text) handed spelled
  eq_iff : ∀ a b s t, (a, s) ∈ handed.zip spelled → (b, t) ∈ handed.zip spelled → (a = b ↔ s = t)
  find?_iff : ∀ text name, names.find? text = some name ↔ names.lookup name = .ok text
  find?_isSome_iff : ∀ text, (names.find? text).isSome ↔ text ∈ met
  foreign_iff : ∀ name, names.lookup name = .error (.foreignName name) ↔ names.size < name.number

/-- Names that are looked up are equal exactly if their texts are. -/
theorem Interner.WellFormed.eq_iff_of_lookup {hash : String → UInt32} {names : Interner hash}
    (h : names.WellFormed) {a b : Name} {s t : String} (ha : names.lookup a = .ok s)
    (hb : names.lookup b = .ok t) : a = b ↔ s = t := by
  constructor
  · rintro rfl
    exact Except.ok.inj (ha.symm.trans hb)
  · rintro rfl
    exact h.name_unique (Interner.lookup_eq_ok_iff.mp ha) (Interner.lookup_eq_ok_iff.mp hb)

namespace Naming

/-- In a unit that was made by any operations, also by reading sources that have no tokens, the
names are canonical. The numbers of names have 32 bits. -/
theorem names_canonical (namings : List Naming)
    (hroom : (after (.new hash) namings).names.size < 2 ^ 32) :
    (after (.new hash) namings).names.Canonical (along texts (.new hash) namings)
      (along names (.new hash) namings) (along spelled (.new hash) namings) := by
  have hnew : (CompilationUnit.new hash).names.WellFormed := Interner.empty_wellFormed
  obtain ⟨hcollects, hhanded⟩ := after_spec hnew namings hroom
  have hlist : (after (.new hash) namings).names.toList =
      (along texts (.new hash) namings).eraseDups := hcollects.toList_eq
  have hnames := hcollects.wellFormed
  generalize (after (.new hash) namings).names = found at *
  have hfind : ∀ text name, found.find? text = some name ↔ found.lookup name = .ok text :=
    fun text name => by rw [hnames.find?_eq_some_iff, Interner.lookup_eq_ok_iff]
  have hnumbered : ∀ name text, found.lookup name = .ok text ↔
      (along texts (.new hash) namings).eraseDups[name.number - 1]? = some text := by
    intro name text
    rw [Interner.lookup_eq_ok_iff, Interner.text?_eq_getElem?, hlist, Name.number,
      Nat.add_sub_cancel]
  have hlookup : List.Forall₂ (fun name text => found.lookup name = .ok text)
      (along names (.new hash) namings) (along spelled (.new hash) namings) := by
    rw [← List.forall₂_eq_eq_eq, List.forall₂_map_left_iff, List.forall₂_map_right_iff] at hhanded
    exact hhanded.imp fun _ _ => Interner.lookup_eq_ok_iff.mpr
  refine ⟨hnumbered, ?_, hlookup, ?_, hfind, ?_, ?_⟩
  · rw [← hlist, Interner.length_toList]
  · obtain ⟨-, hall⟩ := List.forall₂_iff_zip.mp hlookup
    exact fun a b s t ha hb => hnames.eq_iff_of_lookup (hall ha) (hall hb)
  · intro text
    rw [← List.mem_eraseDups, List.mem_iff_getElem?, Option.isSome_iff_exists]
    simp only [hfind, hnumbered]
    constructor
    · rintro ⟨name, hname⟩
      exact ⟨_, hname⟩
    · rintro ⟨i, hi⟩
      exact ⟨⟨i⟩, hi⟩
  · intro name
    simp [Interner.lookup_eq_error_iff]

/-- The source of standard input ends in an error after two names, and another has two tokens. -/
def twoSources : List Naming :=
  [.intern "f", .addSource "-" [0x78, 0x20, 0x66, 0x20, 0x24], .tokenizeSource {} ⟨0⟩,
    .addSource "a" [0x66, 0x20, 0x79], .tokenizeSource {} ⟨1⟩, .prelude, .intern "x"]

theorem twoSources_names_canonical :
    (after (.new .constant) twoSources).names.toList = ["f", "<stdin>", "x", "a", "y", "Int32"] ∧
      (along names (.new .constant) twoSources).map Name.number = [1, 2, 4, 1, 5, 6, 3] ∧
      (after (.new .constant) twoSources).names.Canonical (along texts (.new .constant) twoSources)
        (along names (.new .constant) twoSources)
        ["f", "<stdin>", "a", "f", "y", "Int32", "x"] := by
  have hspelled : along spelled (.new .constant) twoSources =
      ["f", "<stdin>", "a", "f", "y", "Int32", "x"] := by
    decide +kernel
  exact ⟨by decide +kernel, by decide +kernel,
    hspelled ▸ names_canonical twoSources (by decide +kernel)⟩

end Naming

end FrontEnd
