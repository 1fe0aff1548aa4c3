import FrontEnd.Proofs.Phases

/-! # Runs are answered

No source makes a phase breach what it is asked for, so every run of the program leaves an
outcome. -/

namespace FrontEnd

variable {hash : Hasher}

/-! ## Listings of tokens -/

theorem Token.exists_line {u : CompilationUnit hash} {token : Token}
    (h : ∀ name ∈ token.name?, u.Knows name) : ∃ line, token.line u.names = .ok line := by
  have hvalue : ∃ text, valueText u.names token.value = .ok text := by
    cases hfound : token.value with
    | none => exact ⟨_, rfl⟩
    | int value => exact ⟨_, rfl⟩
    | ident name =>
        obtain ⟨text, htext⟩ := Interner.lookup_of_lt (h name (by simp [name?, hfound]))
        exact ⟨_, by rw [valueText, htext]; rfl⟩
  obtain ⟨text, htext⟩ := hvalue
  exact ⟨_, by rw [line, htext]; rfl⟩

theorem Token.exists_linesOnto {u : CompilationUnit hash} {tokens : List Token}
    (h : ∀ token ∈ tokens, ∀ name ∈ token.name?, u.Knows name) (out : String) :
    ∃ lines, linesOnto u.names out tokens = .ok lines := by
  induction tokens generalizing out with
  | nil => exact ⟨out, rfl⟩
  | cons token rest ih =>
      obtain ⟨hfirst, hrest⟩ := List.forall_mem_cons.mp h
      obtain ⟨line, hline⟩ := exists_line hfirst
      rw [linesOnto, hline]
      exact ih hrest _

namespace CompilationUnit

variable {constants : Constants} {u : CompilationUnit hash} {config : LayoutConfig} {path : String}
  {bytes : List UInt8} {tokens : List Token} {item : ItemId} {function : FunctionItem}
  {header : HeaderSyntax} {statement : StatementSyntax}

theorem TokensFit.exists_listing (h : u.TokensFit tokens) :
    ∃ listing, Token.listing u.names tokens = .ok listing :=
  Token.exists_linesOnto h.names ""

/-! ## A source in a new unit -/

/-- The tokens of the first source of a unit. -/
def tokenizeNew (hash : Hasher) (config : LayoutConfig) (path : String) (bytes : List UInt8) :
    Except LexicalError (List Token) × CompilationUnit hash :=
  let (source, u) := (new hash).addSource path bytes
  u.tokenizeSource config source

theorem readSource_new (config : LayoutConfig) (path : String) (bytes : List UInt8) :
    ((new hash).addSource path bytes).2.readSource config ((new hash).addSource path bytes).1 =
      .ok (tokenizeNew hash config path bytes) := rfl

/-- The path of the first source can be looked up ever after. -/
theorem sourcePath_of_grown (path : String) (bytes : List UInt8)
    (hgrown : ((new hash).addSource path bytes).2.Grown u) :
    u.sourcePath ((new hash).addSource path bytes).1 = .ok (shownPath path) := by
  have hsource : u.sources[0]? = some ⟨((new hash).intern (shownPath path)).1, ⟨bytes⟩⟩ :=
    hgrown.sources 0 _ rfl
  have hlt : ((new hash).addSource path bytes).1.index < u.sources.size :=
    (Array.getElem?_eq_some_iff.mp hsource).1
  have hpath : (u.source ((new hash).addSource path bytes).1).path =
      ((new hash).intern (shownPath path)).1 := by
    have hfound := congrArg (·.getD default) hsource
    rw [← Array.getD_eq_getD_getElem?] at hfound
    exact congrArg Source.path hfound
  have hinterned := interned (new_sound : (new hash).Sound _).names (shownPath path)
    (Nat.one_lt_two_pow (by decide))
  rw [sourcePath, checkIndex_bind_of_lt hlt, hpath, Interner.lookup_eq_ok_iff]
  exact hgrown.names.text? hinterned.text_eq

/-- A new unit has room for the path of a source and for all names in it. -/
theorem new_addSource_spec (hcount : config.limits.maxFileChars < countMax) (path : String)
    (bytes : List UInt8) : ((new hash).addSource path bytes).2.Sound (fun _ => none) ∧
      ((new hash).addSource path bytes).2.names.size + config.limits.maxFileChars < 2 ^ 32 := by
  have hroom : (new hash).names.size + 1 < 2 ^ 32 := Nat.one_lt_two_pow (by decide)
  have hnames : ((new hash).addSource path bytes).2.names.size ≤ 0 + 1 :=
    (interned new_sound.names (shownPath path) hroom).size_le
  refine ⟨new_sound.addSource path bytes hroom, ?_⟩
  unfold countMax at hcount
  omega

theorem tokenizeNew_spec (hash : Hasher) (hcount : config.limits.maxFileChars < countMax)
    (path : String) (bytes : List UInt8) :
    (tokenizeNew hash config path bytes).2.Sound (fun _ => none) ∧
      ((new hash).addSource path bytes).2.Grown (tokenizeNew hash config path bytes).2 := by
  obtain ⟨hsound, hroom⟩ := new_addSource_spec hcount path bytes
  have hlength := Reading.length_lexemes_le_maxFileChars hcount
    (((new hash).addSource path bytes).2.source ((new hash).addSource path bytes).1).content.bytes
  exact tokenizeSource_spec hsound config
    (Nat.lt_of_le_of_lt (Nat.add_le_add_left hlength _) hroom)

/-- Reading a source adds names only. -/
theorem tokenizeNew_hasRoom (config : LayoutConfig) (path : String) (bytes : List UInt8)
    {nodes decls : Nat} (hnodes : 4 + nodes ≤ 2 ^ 32) (hdecls : decls ≤ 2 ^ 32) :
    (tokenizeNew hash config path bytes).2.HasRoom nodes decls where
  sources := by
    change 1 ≤ 2 ^ 32
    decide
  items := Nat.zero_le _
  exprs := hnodes
  types := hnodes
  declarations := (Nat.zero_add decls).trans_le hdecls

/-- Tokens of the first source of a unit in which nothing is parsed yet. One that stands for itself
leaves room for one more name. -/
structure FirstTokens (u : CompilationUnit hash) (tokens : List Token) : Prop extends
    TokensFit u tokens where
  sound : u.Sound fun _ => none
  items : u.items = #[]
  itemDeclarations : u.itemDeclarations = #[]
  length_le : tokens.length ≤ 2 ^ 32 - 1
  hasRoom : ∀ {nodes decls}, 4 + nodes ≤ 2 ^ 32 → decls ≤ 2 ^ 32 → u.HasRoom nodes decls
  names_room : (∃ token ∈ tokens, token.kind ≠ .identifier ∧ token.kind ≠ .intLiteral ∧
    token.kind ≠ .endOfFile) → u.names.size + 1 < 2 ^ 32

theorem tokenizeNew_firstTokens (hcount : config.limits.maxFileChars < countMax)
    (hok : (tokenizeNew hash config path bytes).1 = .ok tokens) :
    (tokenizeNew hash config path bytes).2.FirstTokens tokens := by
  obtain ⟨hsound, hroom⟩ := new_addSource_spec hcount path bytes
  obtain ⟨hfit, hlength, hnames⟩ := tokenizeSource_fits hsound hcount hroom hok
  refine ⟨hfit, (tokenizeNew_spec hash hcount path bytes).1, rfl, rfl, ?_,
    tokenizeNew_hasRoom config path bytes, hnames⟩
  unfold countMax at hcount
  omega

namespace FirstTokens

/-- An item that is parsed is not bound, and leaves room for the name of the integer type and for a
prelude, a binding and two checks. -/
theorem parsedItem (h : u.FirstTokens tokens) (hitem : (u.parse tokens).1 = .ok item) :
    ∃ header statement function,
      (u.parse tokens).2.ParsedItem item function header statement ∧
      (u.parse tokens).2.Unbound item function ∧ (u.parse tokens).2.names.size + 1 < 2 ^ 32 ∧
      (u.parse tokens).2.HasRoom (2 * (header.result.opens.length + 1)) 3 := by
  cases hread : readItem tokens with
  | error e =>
      rw [parse_of_readItem_eq_error u hread] at hitem
      cases hitem
  | ok parts =>
      obtain ⟨header, statement⟩ := parts
      obtain ⟨function, hparse, hchains, hspells⟩ := parse_twoChains u hread
      obtain ⟨hafter, hgrown, -⟩ := parse_spec h.sound tokens
      have hderives := (readItem_eq_ok_iff h.ends).mp hread
      have hknows := h.toTokensFit.knowsItem hderives
      have hlength := h.length_le
      have hderived := hderives.length_ge
      rw [hparse] at hitem
      cases hitem
      refine ⟨header, statement, function,
        ⟨hafter.standard nofun, holdsItem_of_items_eq_push hchains.items_eq, hspells,
          hknows.name.grow hgrown, hknows.result.grow hgrown,
          fun name hname => (hknows.value name hname).grow hgrown⟩,
        hchains.unbound h.sound hafter (by rw [h.items, h.itemDeclarations]; rfl), ?_, ?_⟩
      · rw [hchains.names_eq]
        obtain ⟨⟨hstart, -⟩, -, -⟩ := hderives
        exact h.names_room ⟨_, List.mem_append_left _ (List.mem_cons_self ..), by simp [hstart]⟩
      · refine HasRoom.parse_of_readItem u hread (h.hasRoom (by omega) (by decide)) ?_
        rw [h.items]
        decide

end FirstTokens

/-! ## Everything that is said about a source -/

/-- The standard prelude or the empty one. -/
def preludeOf (u : CompilationUnit hash) (standard : Bool) : Prelude × CompilationUnit hash :=
  if standard then Prelude.standard u else (.empty, u)

/-- What is said about a source in a new unit: its tokens, the item that is parsed, and then what
the phases say with the standard or the empty prelude. The first two stop at an error. -/
def runSource (hash : Hasher) (config : LayoutConfig) (standard : Bool) (phases : List Phase)
    (path : String) (bytes : List UInt8) : Except Breach (List String × CompilationUnit hash) := do
  let (source, u) := (new hash).addSource path bytes
  let (tokens, u) ← u.readSource config source
  match tokens with
  | .error e => return ([e.message], u)
  | .ok tokens =>
    let tokenListing ← Token.listing u.names tokens
    let (item, u) := u.parse tokens
    match item with
    | .error e => return ([tokenListing, e.message], u)
    | .ok item =>
      let itemListing ← u.itemListing item
      let (prelude, u) := u.preludeOf standard
      let (said, u) ← u.runPhases item prelude phases
      return (tokenListing :: itemListing :: said, u)

/-- Every name and every node has a number of 32 bits. -/
structure Addressable (u : CompilationUnit hash) : Prop where
  names : u.names.size < 2 ^ 32
  sources : u.sources.size ≤ 2 ^ 32
  items : u.items.size ≤ 2 ^ 32
  exprs : u.exprs.size ≤ 2 ^ 32
  types : u.types.size ≤ 2 ^ 32
  declarations : u.declarations.size ≤ 2 ^ 32

theorem HasRoom.addressable {nodes decls : Nat} (h : u.HasRoom nodes decls)
    (hsound : u.Sound constants) : u.Addressable where
  names := hsound.names.bits
  sources := h.sources
  items := h.items
  exprs := Nat.le_of_add_right_le h.exprs
  types := Nat.le_of_add_right_le h.types
  declarations := Nat.le_of_add_right_le h.declarations

theorem tokenizeNew_addressable (hash : Hasher) (hcount : config.limits.maxFileChars < countMax)
    (path : String) (bytes : List UInt8) : (tokenizeNew hash config path bytes).2.Addressable := by
  have hroom : (tokenizeNew hash config path bytes).2.HasRoom 0 0 :=
    tokenizeNew_hasRoom config path bytes (by decide) (Nat.zero_le _)
  exact hroom.addressable (tokenizeNew_spec hash hcount path bytes).1

/-- Also an error leaves no more than can be numbered. -/
theorem FirstTokens.parse_addressable (h : u.FirstTokens tokens) :
    (u.parse tokens).2.Addressable := by
  have hlength := h.length_le
  have hroom : u.HasRoom (tokens.length - 4) 0 := h.hasRoom (by omega) (Nat.zero_le _)
  exact (hroom.parse h.ends (by rw [h.items]; decide)).addressable (parse_spec h.sound tokens).1

/-- The item of a source is bound and checked under either prelude. -/
theorem ParsedItem.runPhases_of_unbound (h : u.ParsedItem item function header statement)
    (hunbound : u.Unbound item function) (hroom : u.names.size + 1 < 2 ^ 32) (standard : Bool)
    {phases : List Phase} (hbind : phases.count .bind ≤ 1) :
    ∃ said v,
      (u.preludeOf standard).2.runPhases item (u.preludeOf standard).1 phases = .ok (said, v) ∧
      v.Sound (standardConstants v.names) ∧
      (phases.count .check ≤ 2 → u.HasRoom (2 * (header.result.opens.length + 1)) 3 →
        v.HasRoom 0 0) := by
  have hcheck : phases.count .check ≤ 2 → phases.count .check * (header.result.opens.length + 1) ≤
      2 * (header.result.opens.length + 1) := Nat.mul_le_mul_right _
  have hbinds : ∀ v : CompilationUnit hash, v.Unbound item function →
      v.BindsOnce item function phases := by
    intro v hunbound
    rcases Nat.le_one_iff_eq_zero_or_eq_one.mp hbind with hnone | hone
    · exact .inl hnone
    · exact .inr ⟨hone, hunbound⟩
  cases standard with
  | false =>
      obtain ⟨said, v, hsaid, hsound, hafter⟩ :=
        h.runPhases_answered (.inl rfl) (hbinds u hunbound)
      exact ⟨said, v, hsaid, hsound, fun htwo hroom =>
        hafter (hroom.mono (hcheck htwo) (Nat.le_trans hbind (by decide)))⟩
  | true =>
      obtain ⟨hparsed, hprelude⟩ := h.standardPrelude hroom
      obtain ⟨said, v, hsaid, hsound, hafter⟩ :=
        hparsed.runPhases_answered hprelude (hbinds _ hunbound.prelude)
      exact ⟨said, v, hsaid, hsound, fun htwo hroom =>
        hafter (hroom.prelude.mono (hcheck htwo) hbind)⟩

/-- Whatever the bytes of a source are, each phase over it is answered. -/
theorem runSource_answered (hcount : config.limits.maxFileChars < countMax) (standard : Bool)
    {phases : List Phase} (hbind : phases.count .bind ≤ 1) (path : String) (bytes : List UInt8) :
    ∃ said u, runSource hash config standard phases path bytes = .ok (said, u) ∧
      (phases.count .check ≤ 2 → u.Addressable) := by
  have hread := tokenizeNew_addressable hash hcount path bytes
  have hfirst := fun tokens => @tokenizeNew_firstTokens hash config path bytes tokens hcount
  unfold runSource
  simp only [readSource_new, Bind.bind, Except.bind]
  generalize tokenizeNew hash config path bytes = read at hread hfirst ⊢
  obtain ⟨answer, u⟩ := read
  cases answer with
  | error e => exact ⟨_, u, rfl, fun _ => hread⟩
  | ok tokens =>
      have htokens : u.FirstTokens tokens := hfirst tokens rfl
      obtain ⟨listing, hlisting⟩ := htokens.exists_listing
      have hleft := htokens.parse_addressable
      have hparsed := fun item (hitem : (u.parse tokens).1 = .ok item) => htokens.parsedItem hitem
      simp only [hlisting]
      generalize u.parse tokens = parsed at hleft hparsed ⊢
      obtain ⟨item?, v⟩ := parsed
      cases item? with
      | error e => exact ⟨_, v, rfl, fun _ => hleft⟩
      | ok item =>
          obtain ⟨header, statement, function, hitem, hunbound, hnames, hsizes⟩ := hparsed item rfl
          obtain ⟨itemListing, hitemListing⟩ := hitem.exists_listing
          obtain ⟨said, w, hsaid, hsound, hafter⟩ :=
            hitem.runPhases_of_unbound hunbound hnames standard hbind
          refine ⟨listing :: itemListing :: said, w, ?_,
            fun htwo => (hafter htwo hsizes).addressable hsound⟩
          dsimp only at hitemListing hsaid ⊢
          rw [hitemListing, hsaid]
          rfl

end CompilationUnit

/-! ## Commands -/

namespace Run

open CompilationUnit

theorem exists_bindingDiagnostic {u : CompilationUnit hash} {e : BindingError}
    (h : ∀ name pos, e = .unbound name pos → u.Knows name) :
    ∃ diagnostic, e.diagnostic u.names = .ok diagnostic := by
  obtain ⟨text, htext⟩ := BindingError.exists_message h
  exact ⟨_, by rw [BindingError.diagnostic, htext]; rfl⟩

theorem exists_typingDiagnostic {u : CompilationUnit hash} {e : TypingError}
    (hname : ∀ name pos, e = .unknownName name pos → u.Knows name)
    (htypes : ∀ expected actual pos, e = .mismatch expected actual pos →
      expected.index < u.types.size ∧ actual.index < u.types.size) :
    ∃ diagnostic, e.diagnostic u = .ok diagnostic := by
  obtain ⟨text, htext⟩ := TypingError.exists_message hname htypes
  exact ⟨_, by rw [TypingError.diagnostic, htext]; rfl⟩

/-- The phase of a command over a parsed item is answered. -/
theorem itemPhase_answered {u : CompilationUnit hash} {item : ItemId} {function : FunctionItem}
    {header : HeaderSyntax} {statement : StatementSyntax} (command : Command)
    (hitem : u.ParsedItem item function header statement) (hunbound : u.Unbound item function)
    (hnames : u.names.size + 1 < 2 ^ 32)
    (hsizes : u.HasRoom (2 * (header.result.opens.length + 1)) 3) :
    ∃ result v, itemPhase command u item = .ok (result, v) ∧ u.Grown v ∧ v.Addressable := by
  obtain ⟨hstandard, hprelude⟩ := hitem.standardPrelude hnames
  have hwith := (Prelude.standard_spec hitem.sound hnames).2.1
  cases command with
  | tokenize | parse =>
      obtain ⟨text, htext⟩ := hitem.exists_listing
      exact ⟨.ok text, u, by simp only [itemPhase, htext]; rfl, .refl u,
        hsizes.addressable hitem.sound⟩
  | bind =>
      obtain ⟨answer, v, hanswer, hbound, hgrown, hreferred, hdecls, hknows⟩ :=
        hstandard.bind_answered hprelude hunbound.prelude
      have hroom := (hsizes.prelude.referred hreferred hdecls).addressable hbound.sound
      simp only [itemPhase, hanswer, Bind.bind, Except.bind]
      cases answer with
      | ok done =>
          obtain ⟨text, htext⟩ := hbound.exists_listing
          exact ⟨.ok text, v, by rw [htext]; rfl, hwith.trans hgrown, hroom⟩
      | error e =>
          obtain ⟨diagnostic, hdiagnostic⟩ := exists_bindingDiagnostic fun name pos heq =>
            hknows name pos (heq ▸ rfl)
          exact ⟨_, v, by simp only [hdiagnostic]; rfl, hwith.trans hgrown, hroom⟩
  | check =>
      obtain ⟨answer, hanswer, hchecked, hqueried, hmodest, htypes⟩ :=
        hstandard.check_answered hprelude
      have hone : header.result.opens.length + 1 + 0 ≤ 2 * (header.result.opens.length + 1) := by
        omega
      have hroom := (hsizes.prelude.queried hqueried hmodest.toAdds hone hone).addressable
        hchecked.sound
      have hgrown := hwith.trans hqueried.toGrown
      simp only [itemPhase, hanswer, Bind.bind, Except.bind]
      cases hvalue : answer.value with
      | ok done =>
          obtain ⟨text, htext⟩ := hchecked.exists_listing
          exact ⟨.ok text, answer.unit, by simp only [htext]; rfl, hgrown, hroom⟩
      | error e =>
          obtain ⟨diagnostic, hdiagnostic⟩ := exists_typingDiagnostic
            (fun name pos heq => hmodest.knows name pos (hvalue.trans (heq ▸ rfl)))
            (fun expected actual pos heq =>
              htypes expected actual pos (hvalue.trans (heq ▸ rfl)))
          exact ⟨_, answer.unit, by simp only [hdiagnostic]; rfl, hgrown, hroom⟩

/-- The phases of every command are answered. The unit that they leave has grown, and no more than
can be numbered. -/
theorem phases_answered (hash : Hasher) (command : Command) (path : String) (bytes : List UInt8) :
    ∃ result u, phases command ((new hash).addSource path bytes).2
        ((new hash).addSource path bytes).1 = .ok (result, u) ∧
      ((new hash).addSource path bytes).2.Grown u ∧ u.Addressable := by
  have hcount : ({} : LayoutConfig).limits.maxFileChars < countMax := by decide
  have hfirst := fun tokens => @tokenizeNew_firstTokens hash {} path bytes tokens hcount
  have hgrown := (tokenizeNew_spec hash hcount path bytes).2
  have hread := tokenizeNew_addressable hash hcount path bytes
  unfold phases
  simp only [readSource_new, Bind.bind, Except.bind]
  generalize tokenizeNew hash {} path bytes = read at hfirst hgrown hread ⊢
  obtain ⟨answer, u⟩ := read
  cases answer with
  | error e => exact ⟨_, u, rfl, hgrown, hread⟩
  | ok tokens =>
      have htokens : u.FirstTokens tokens := hfirst tokens rfl
      obtain ⟨listing, hlisting⟩ := htokens.exists_listing
      have hparsed := fun item (hitem : (u.parse tokens).1 = .ok item) => htokens.parsedItem hitem
      have hafter := hgrown.trans (parse_spec htokens.sound tokens).2.1
      have hleft := htokens.parse_addressable
      by_cases hcommand : command = .tokenize
      · exact ⟨.ok listing, u, by simp only [hcommand, if_true, hlisting]; rfl, hgrown, hread⟩
      · simp only [hcommand, if_false]
        generalize u.parse tokens = parsed at hparsed hafter hleft ⊢
        obtain ⟨item?, v⟩ := parsed
        cases item? with
        | error e => exact ⟨_, v, rfl, hafter, hleft⟩
        | ok item =>
            obtain ⟨header, statement, function, hitem, hunbound, hnames, hsizes⟩ :=
              hparsed item rfl
            obtain ⟨result, w, hresult, hlast, hnumbered⟩ :=
              itemPhase_answered command hitem hunbound hnames hsizes
            exact ⟨result, w, hresult, hafter.trans hlast, hnumbered⟩

/-- What a command does with the bytes of an input is what its phases give, with the path of the
input. -/
theorem exists_effectsOfBytes_eq (hash : Hasher) (options : Options) (bytes : List UInt8) :
    ∃ result u, phases options.command ((new hash).addSource options.input bytes).2
        ((new hash).addSource options.input bytes).1 = .ok (result, u) ∧
      effectsOfBytes hash options bytes =
        .ok (effects options (shownPath options.input) result) := by
  obtain ⟨result, u, hresult, hgrown, -⟩ := phases_answered hash options.command options.input bytes
  refine ⟨result, u, hresult, ?_⟩
  simp only [effectsOfBytes, hresult, sourcePath_of_grown _ _ hgrown, Bind.bind, Except.bind]
  rfl

theorem effectsOfInput_answered (hash : Hasher) (options : Options) (world : World) :
    ∃ effects, effectsOfInput hash options world = .ok effects := by
  unfold effectsOfInput
  cases world.read options.input with
  | error e => exact ⟨_, rfl⟩
  | ok bytes =>
      obtain ⟨result, -, -, heffects⟩ := exists_effectsOfBytes_eq hash options bytes
      exact ⟨_, heffects⟩

/-- No run breaches what an operation asks for: whatever the arguments are, and whatever comes of
reading the input and of writing to either output, there is an outcome, and the phases of the
command leave all numbers of names and of nodes within 32 bits.

The same holds of all phases over a source, with limits below the largest count and either prelude,
if each goes on whatever the one before it answers, the item is bound at most once and, for the
numbers, it is checked at most twice. -/
theorem run_and_phases_answered (hash : Hasher) :
    (∀ (args : List String) (world : World), ∃ outcome, run hash args world = .ok outcome) ∧
    (∀ (command : Command) (path : String) (bytes : List UInt8), ∃ result u,
      phases command ((new hash).addSource path bytes).2 ((new hash).addSource path bytes).1 =
        .ok (result, u) ∧ u.Addressable) ∧
    ∀ (config : LayoutConfig) (standard : Bool) (phases : List Phase) (path : String)
      (bytes : List UInt8), config.limits.maxFileChars < countMax → phases.count .bind ≤ 1 →
      ∃ said u, runSource hash config standard phases path bytes = .ok (said, u) ∧
        (phases.count .check ≤ 2 → u.Addressable) := by
  refine ⟨fun args world => ?_, fun command path bytes => ?_,
    fun config standard phases path bytes hcount hbind =>
      runSource_answered hcount standard hbind path bytes⟩
  · unfold run
    split
    · exact ⟨_, rfl⟩
    · rename_i options _
      obtain ⟨effects, heffects⟩ := effectsOfInput_answered hash options world
      exact ⟨_, by simp only [runCommand, heffects]; rfl⟩
    · exact ⟨_, rfl⟩
  · obtain ⟨result, u, hresult, -, hnumbered⟩ := phases_answered hash command path bytes
    exact ⟨result, u, hresult, hnumbered⟩

/-- A function may refer to itself, but its name is no constant: it is bound, and both checks go on
to say so. -/
theorem phases_answered_own_name : ({} : LayoutConfig).limits.maxFileChars < countMax ∧
    [Phase.bind, .check, .check].count .bind ≤ 1 ∧
    ∃ said u, runSource .constant {} true [.bind, .check, .check] "-"
        "def f() -> Int32 \x7b return f \x7d".toUTF8.toList = .ok (said, u) ∧
      said.length = 7 ∧ said[3]? = some "undeclared name `f`" ∧ said[5]? = said[3]? ∧
      u.Addressable := by
  obtain ⟨said, u, hsaid, haddressable⟩ := (run_and_phases_answered .constant).2.2 {} true
    [.bind, .check, .check] "-" "def f() -> Int32 \x7b return f \x7d".toUTF8.toList (by decide)
    (by decide)
  have hevaluated : ((runSource .constant {} true [.bind, .check, .check] "-"
      "def f() -> Int32 \x7b return f \x7d".toUTF8.toList).map fun ended =>
        (ended.1.length, ended.1[3]?, ended.1[5]?)) =
      .ok (7, some "undeclared name `f`", some "undeclared name `f`") := by
    decide +kernel
  rw [hsaid] at hevaluated
  obtain ⟨hlength, herrors⟩ := Prod.mk.inj (Except.ok.inj hevaluated)
  obtain ⟨hfirst, hsecond⟩ := Prod.mk.inj herrors
  exact ⟨by decide, by decide, said, u, hsaid, hlength, hfirst, hsecond.trans hfirst.symm,
    haddressable (by decide)⟩

end Run

end FrontEnd
