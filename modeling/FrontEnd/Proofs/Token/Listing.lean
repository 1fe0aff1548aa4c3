import FrontEnd.Proofs.CommandLine.Run
import FrontEnd.Proofs.Grammar.SourceErrors
import FrontEnd.Proofs.Text.SelfDelimiting
import FrontEnd.Token.Listing

/-! # What listings of tokens tell

Tokens that were read from sources have one listing exactly if they are alike, one by one. A listing
keeps all but the digits and the radix of oversized literals. -/

namespace FrontEnd

variable {hash : String → UInt32}

/-! ## Kinds -/

namespace TokenKind

theorem mem_all (kind : TokenKind) : kind ∈ all := by
  cases kind with
  | endOfFile | identifier | intLiteral => decide
  | symbol s => cases s <;> decide +kernel
  | keyword k => cases k <;> decide +kernel

theorem name_injective {a b : TokenKind} (h : a.name.toList = b.name.toList) : a = b := by
  have hfound : ∀ kind ∈ all, ofName? kind.name = some kind := by decide +kernel
  rw [String.toList_inj] at h
  have ha := hfound a a.mem_all
  rw [h, hfound b b.mem_all] at ha
  exact (Option.some.inj ha).symm

theorem isAlpha_name (kind : TokenKind) : kind.name.toList.all Char.isAlpha = true := by
  have hall : ∀ kind ∈ all, kind.name.toList.all Char.isAlpha = true := by decide +kernel
  exact hall kind kind.mem_all

end TokenKind

/-- A position ends before anything but a digit. -/
theorem Position.text_append_inj {a b : Position} {after after' : List Char}
    (hafter : after.head?.all (!Char.isDigit ·) = true)
    (hafter' : after'.head?.all (!Char.isDigit ·) = true)
    (h : a.text.toList ++ after = b.text.toList ++ after') : a = b ∧ after = after' := by
  obtain ⟨line, column⟩ := a
  obtain ⟨line', column'⟩ := b
  simp only [text, String.toList_append, List.append_assoc] at h
  obtain ⟨rfl, hrest⟩ := Text.toString_append_inj rfl rfl h
  obtain ⟨rfl, hafter⟩ :=
    Text.toString_append_inj hafter hafter' (List.append_cancel_left hrest)
  exact ⟨rfl, hafter⟩

/-! ## Tokens that are alike -/

/-- Values are alike in two interners: identifiers of one text, equal numbers, or literals that are
oversized both. -/
inductive Payload.Alike (names names' : Interner hash) : Payload Name → Payload Name → Prop where
  | none : Alike names names' .none .none
  | int {value value' : IntegerValue Name} : value.small? = value'.small? →
      Alike names names' (.int value) (.int value')
  | ident {name name' : Name} {text : String} : names.text? name = some text →
      names'.text? name' = some text → Alike names names' (.ident name) (.ident name')

namespace Token

structure Alike (names names' : Interner hash) (a b : Token) : Prop where
  pos : a.pos = b.pos
  kind : a.kind = b.kind
  value : a.value.Alike names names' b.value

variable {names names' : Interner hash} {a b : Token} {tokens tokens' : List Token}

/-! ## Values and lines -/

theorem valueText_ident_eq_ok_iff {name : Name} {shown : String} :
    valueText names (.ident name) = .ok shown ↔
      ∃ text, names.text? name = some text ∧ " " ++ Text.quote text = shown := by
  simp only [valueText, Except.map_eq_ok_iff, Interner.lookup_eq_ok_iff]

/-- What is shown of a value is nothing, or starts with a blank. -/
theorem valueText_head {value : Payload Name} {shown : String}
    (h : valueText names value = .ok shown) (after : List Char) :
    (shown.toList ++ '\n' :: after).head?.all (!Char.isAlpha ·) = true := by
  cases value with
  | none =>
      cases h
      rfl
  | int value =>
      cases h
      rw [String.toList_append]
      rfl
  | ident name =>
      obtain ⟨text, -, rfl⟩ := valueText_ident_eq_ok_iff.mp h
      rw [String.toList_append]
      rfl

/-- A value ends with its line, and all of it but an oversized number is read back. -/
theorem valueText_append_inj {x y : Payload Name} {shown shown' : String}
    {after after' : List Char} (hx : valueText names x = .ok shown)
    (hy : valueText names' y = .ok shown')
    (h : shown.toList ++ '\n' :: after = shown'.toList ++ '\n' :: after') :
    x.Alike names names' y ∧ after = after' := by
  cases x with
  | none =>
      cases hx
      cases y with
      | none =>
          cases hy
          exact ⟨.none, (List.cons.inj h).2⟩
      | int value =>
          cases hy
          rw [String.toList_append] at h
          cases (List.cons.inj h).1
      | ident name =>
          obtain ⟨text, -, rfl⟩ := valueText_ident_eq_ok_iff.mp hy
          rw [String.toList_append] at h
          cases (List.cons.inj h).1
  | int value =>
      cases hx
      cases y with
      | none =>
          cases hy
          rw [String.toList_append] at h
          cases (List.cons.inj h).1
      | int value' =>
          cases hy
          simp only [String.toList_append, List.append_assoc, IntegerValue.text_eq_number] at h
          obtain ⟨hvalue, hafter⟩ := Text.number_append_inj rfl rfl (List.append_cancel_left h)
          exact ⟨.int hvalue, (List.cons.inj hafter).2⟩
      | ident name =>
          obtain ⟨text, -, rfl⟩ := valueText_ident_eq_ok_iff.mp hy
          simp only [String.toList_append, List.append_assoc, IntegerValue.text_eq_number] at h
          exact absurd (List.append_cancel_left h) (Text.number_append_ne_quote _ text)
  | ident name =>
      obtain ⟨text, htext, rfl⟩ := valueText_ident_eq_ok_iff.mp hx
      cases y with
      | none =>
          cases hy
          rw [String.toList_append] at h
          cases (List.cons.inj h).1
      | int value =>
          cases hy
          simp only [String.toList_append, List.append_assoc, IntegerValue.text_eq_number] at h
          exact absurd (List.append_cancel_left h).symm (Text.number_append_ne_quote _ text)
      | ident name' =>
          obtain ⟨text', htext', rfl⟩ := valueText_ident_eq_ok_iff.mp hy
          simp only [String.toList_append, List.append_assoc] at h
          obtain ⟨rfl, hafter⟩ := Text.quote_selfDelimiting (List.append_cancel_left h)
          exact ⟨.ident htext htext', (List.cons.inj hafter).2⟩

theorem line_eq_ok_iff {token : Token} {line : String} : token.line names = .ok line ↔
    ∃ shown, valueText names token.value = .ok shown ∧
      token.pos.text ++ " " ++ token.kind.name ++ shown ++ "\n" = line := by
  rw [Token.line, Except.map_eq_ok_iff]

theorem line_append_ne {token : Token} {line rest : String} (h : token.line names = .ok line) :
    line ++ rest ≠ "" := by
  obtain ⟨shown, -, rfl⟩ := line_eq_ok_iff.mp h
  intro hempty
  have hchars := congrArg String.toList hempty
  simp at hchars

/-- A line is read back as a token like its own. -/
theorem line_append_inj {line line' : String} {after after' : List Char}
    (ha : a.line names = .ok line) (hb : b.line names' = .ok line')
    (h : line.toList ++ after = line'.toList ++ after') :
    a.Alike names names' b ∧ after = after' := by
  obtain ⟨shown, hshown, rfl⟩ := line_eq_ok_iff.mp ha
  obtain ⟨shown', hshown', rfl⟩ := line_eq_ok_iff.mp hb
  simp only [String.toList_append, List.append_assoc] at h
  obtain ⟨hpos, hrest⟩ := Position.text_append_inj rfl rfl h
  obtain ⟨hkind, hrest⟩ := append_inj_of_head? a.kind.isAlpha_name b.kind.isAlpha_name
    (valueText_head hshown _) (valueText_head hshown' _) (List.append_cancel_left hrest)
  obtain ⟨hvalue, hafter⟩ := valueText_append_inj hshown hshown' hrest
  exact ⟨⟨hpos, TokenKind.name_injective hkind, hvalue⟩, hafter⟩

theorem Alike.line_eq (h : a.Alike names names' b) : a.line names = b.line names' := by
  obtain ⟨hpos, hkind, hvalue⟩ := h
  have hshown : valueText names a.value = valueText names' b.value := by
    generalize a.value = x at hvalue
    generalize b.value = y at hvalue
    cases hvalue with
    | none => rfl
    | int hsmall => rw [valueText, valueText, IntegerValue.text_eq_number, hsmall,
        IntegerValue.text_eq_number]
    | ident htext htext' =>
        rw [valueText, valueText, Interner.lookup_eq_ok_iff.mpr htext,
          Interner.lookup_eq_ok_iff.mpr htext']
  rw [line, line, hshown, hpos, hkind]

/-! ## Listings -/

theorem linesOnto_eq (out : String) (tokens : List Token) :
    linesOnto names out tokens = (listing names tokens).map (out ++ ·) := by
  unfold listing
  induction tokens generalizing out with
  | nil => simp [linesOnto, Except.map]
  | cons token rest ih =>
      cases hline : token.line names with
      | error breach => simp [linesOnto, hline, Except.map]
      | ok line =>
          simp only [linesOnto, hline]
          rw [ih, ih ("" ++ line)]
          cases linesOnto names "" rest <;> simp [Except.map, String.append_assoc]

theorem listing_cons_eq_ok_iff {token : Token} {text : String} :
    listing names (token :: tokens) = .ok text ↔ ∃ line rest, token.line names = .ok line ∧
      listing names tokens = .ok rest ∧ line ++ rest = text := by
  rw [listing, linesOnto]
  cases token.line names with
  | error breach => simp
  | ok line => simp [linesOnto_eq, Except.map_eq_ok_iff]

/-- Listings are equal exactly if their tokens are alike, one by one. -/
theorem listing_eq_iff {text text' : String} (h : listing names tokens = .ok text)
    (h' : listing names' tokens' = .ok text') :
    text = text' ↔ List.Forall₂ (Alike names names') tokens tokens' := by
  constructor
  · intro heq
    subst heq
    induction tokens generalizing tokens' text with
    | nil =>
        cases h
        cases tokens' with
        | nil => exact .nil
        | cons token rest =>
            obtain ⟨line, lines, hline, -, hempty⟩ := listing_cons_eq_ok_iff.mp h'
            exact absurd hempty (line_append_ne hline)
    | cons token rest ih =>
        obtain ⟨line, lines, hline, hlines, rfl⟩ := listing_cons_eq_ok_iff.mp h
        cases tokens' with
        | nil => exact absurd (Except.ok.inj h').symm (line_append_ne hline)
        | cons token' rest' =>
            obtain ⟨line', lines', hline', hlines', heq⟩ := listing_cons_eq_ok_iff.mp h'
            rw [← String.toList_inj, String.toList_append, String.toList_append] at heq
            obtain ⟨halike, hrest⟩ := line_append_inj hline hline' heq.symm
            obtain rfl := String.toList_inj.mp hrest
            exact .cons halike (ih hlines hlines')
  · intro halike
    induction halike generalizing text text' with
    | nil => exact Except.ok.inj (h.symm.trans h')
    | cons halike _ ih =>
        obtain ⟨line, lines, hline, hlines, rfl⟩ := listing_cons_eq_ok_iff.mp h
        obtain ⟨line', lines', hline', hlines', rfl⟩ := listing_cons_eq_ok_iff.mp h'
        rw [halike.line_eq, hline'] at hline
        cases hline
        rw [ih hlines hlines']

end Token

namespace CompilationUnit

variable {hash : Hasher} {u v : CompilationUnit hash} {config config' : LayoutConfig}
  {source source' : SourceId} {tokens tokens' : List Token} {names names' : Interner hash.text}

/-- The tokens of a source are listed in every unit that still has their names. -/
theorem exists_listing_of_tokenizeSource (h : u.names.WellFormed)
    (hok : (u.tokenizeSource config source).1 = .ok tokens)
    (hroom : (u.tokenizeSource config source).2.names.size < 2 ^ 32)
    (hlater : (u.tokenizeSource config source).2.names.Extends names) :
    ∃ text, Token.listing names tokens = .ok text := by
  obtain ⟨placed, stop, spelled, rfl, hplaced, -⟩ := exists_decomposes_of_tokenizeSource h hok hroom
  have hknows : ∀ token ∈ spelled ++ [.endOfFile stop], ∀ name ∈ token.name?,
      ({ u with names } : CompilationUnit hash).Knows name := by
    refine List.forall_mem_append.mpr ⟨fun token htoken name hname => ?_, ?_⟩
    · obtain ⟨entry, -, hspells⟩ := exists_placed_of_mem hplaced htoken
      exact Token.name?_lt (Token.placed?_of_extends hlater hspells) hname
    · exact List.forall_mem_singleton.mpr nofun
  exact Token.exists_linesOnto hknows ""

/-- Two sources are read in any units, and their tokens are listed with the names of then or with
later ones. The listings are equal exactly if the tokens are equally many and alike, one by one. -/
theorem tokenizeSource_listing_eq_iff (hu : u.names.WellFormed) (hv : v.names.WellFormed)
    (hok : (u.tokenizeSource config source).1 = .ok tokens)
    (hok' : (v.tokenizeSource config' source').1 = .ok tokens')
    (hroom : (u.tokenizeSource config source).2.names.size < 2 ^ 32)
    (hroom' : (v.tokenizeSource config' source').2.names.size < 2 ^ 32)
    (hlater : (u.tokenizeSource config source).2.names.Extends names)
    (hlater' : (v.tokenizeSource config' source').2.names.Extends names') :
    ∃ text text', Token.listing names tokens = .ok text ∧ Token.listing names' tokens' = .ok text' ∧
      (text = text' ↔ List.Forall₂ (Token.Alike names names') tokens tokens') := by
  obtain ⟨text, htext⟩ := exists_listing_of_tokenizeSource hu hok hroom hlater
  obtain ⟨text', htext'⟩ := exists_listing_of_tokenizeSource hv hok' hroom' hlater'
  exact ⟨text, text', htext, htext', Token.listing_eq_iff htext htext'⟩

/-- A unit with the source `a 0x40000000000000000`. -/
def hexSource : CompilationUnit .constant :=
  ((new .constant).addSource "-" ([0x61, 0x20, 0x30, 0x78, 0x34] ++ List.replicate 16 0x30)).2

/-- A unit with one more name, and the source `a 9999999999999999999`. -/
def decimalSource : CompilationUnit .constant :=
  (((new .constant).intern "b").2.addSource "-" ([0x61, 0x20] ++ List.replicate 19 0x39)).2

/-- Two oversized literals, which are other tokens with other names, are listed alike. -/
theorem tokenizeSource_listing_eq_iff_oversized : ∃ tokens tokens' text,
    (hexSource.tokenizeSource {} ⟨0⟩).1 = .ok tokens ∧
    (decimalSource.tokenizeSource {} ⟨0⟩).1 = .ok tokens' ∧ tokens ≠ tokens' ∧
    Token.listing (hexSource.tokenizeSource {} ⟨0⟩).2.names tokens = .ok text ∧
    Token.listing (decimalSource.tokenizeSource {} ⟨0⟩).2.names tokens' = .ok text := by
  have hok : (hexSource.tokenizeSource {} ⟨0⟩).1 = .ok
      [⟨.identifier, .start, .ident ⟨1⟩⟩, ⟨.intLiteral, ⟨1, 3⟩, .int (.oversized ⟨2⟩ 16)⟩,
        .endOfFile ⟨1, 22⟩] := by
    decide +kernel
  have hok' : (decimalSource.tokenizeSource {} ⟨0⟩).1 = .ok
      [⟨.identifier, .start, .ident ⟨2⟩⟩, ⟨.intLiteral, ⟨1, 3⟩, .int (.oversized ⟨3⟩ 10)⟩,
        .endOfFile ⟨1, 22⟩] := by
    decide +kernel
  have hnames : hexSource.names.WellFormed :=
    (Interner.empty_wellFormed.intern "<stdin>" (by decide)).wellFormed
  have hnames' : decimalSource.names.WellFormed :=
    ((Interner.empty_wellFormed.intern "b" (by decide)).wellFormed.intern "<stdin>"
      (by decide +kernel)).wellFormed
  obtain ⟨text, text', htext, htext', hiff⟩ := tokenizeSource_listing_eq_iff hnames hnames' hok hok'
    (by decide +kernel) (by decide +kernel) (.refl _) (.refl _)
  have hname : (hexSource.tokenizeSource {} ⟨0⟩).2.names.text? ⟨1⟩ = some "a" := by decide +kernel
  have hname' : (decimalSource.tokenizeSource {} ⟨0⟩).2.names.text? ⟨2⟩ = some "a" := by
    decide +kernel
  have halike : text = text' := hiff.mpr (.cons ⟨rfl, rfl, .ident hname hname'⟩
    (.cons ⟨rfl, rfl, .int rfl⟩ (.cons ⟨rfl, rfl, .none⟩ .nil)))
  exact ⟨_, _, text, hok, hok', by decide, htext, halike ▸ htext'⟩

end CompilationUnit

end FrontEnd
