import FrontEnd.Proofs.Grammar.Parsing

/-! # Syntax errors stand where no sentence goes on

The tokens before the one that a syntax error names begin a sentence, and with that token they do
not. All that is left of them are expressions about which nothing is known. -/

namespace FrontEnd

variable {hash : Hasher}

/-! ## Beginnings of sentences -/

section Languages

variable {first second language narrow wide : List TokenKind → Prop}
  {kinds : List TokenKind} {kind : TokenKind}

/-- Some sentence goes on from these kinds. -/
def Begins (language : List TokenKind → Prop) (kinds : List TokenKind) : Prop :=
  ∃ rest, language (kinds ++ rest)

/-- No sentence goes on from these kinds, and none ends among them. -/
def Excludes (language : List TokenKind → Prop) (kinds : List TokenKind) : Prop :=
  ∀ sentence more rest, language sentence → sentence ++ more ≠ kinds ++ rest

theorem Excludes.not_begins (h : Excludes language kinds) : ¬ Begins language kinds := by
  rintro ⟨rest, hsentence⟩
  exact h _ [] rest hsentence (List.append_nil _)

/-- No sentence goes on from another one. -/
def PrefixFree (language : List TokenKind → Prop) : Prop :=
  ∀ ⦃a b x y⦄, language a → language b → a ++ x = b ++ y → a = b

/-- The sentence that is one token. -/
def Only (kind : TokenKind) (kinds : List TokenKind) : Prop := kinds = [kind]

/-- A sentence of one language and then one of another. -/
def Followed (first second : List TokenKind → Prop) (kinds : List TokenKind) : Prop :=
  ∃ a b, first a ∧ second b ∧ kinds = a ++ b

theorem followed_only_iff : Followed (Only kind) second kinds ↔
    ∃ rest, second rest ∧ kinds = kind :: rest := by
  constructor
  · rintro ⟨_, rest, rfl, h, rfl⟩
    exact ⟨rest, h, rfl⟩
  · rintro ⟨rest, h, rfl⟩
    exact ⟨[kind], rest, rfl, h, rfl⟩

theorem Followed.cons (h : second kinds) : Followed (Only kind) second (kind :: kinds) :=
  followed_only_iff.mpr ⟨kinds, h, rfl⟩

theorem Begins.only (kind : TokenKind) : Begins (Only kind) [] := ⟨[kind], rfl⟩

theorem Begins.followed (hfirst : Begins first []) (hsecond : Begins second []) :
    Begins (Followed first second) [] := by
  obtain ⟨a, ha⟩ := hfirst
  obtain ⟨b, hb⟩ := hsecond
  exact ⟨a ++ b, a, b, ha, hb, rfl⟩

theorem PrefixFree.only (kind : TokenKind) : PrefixFree (Only kind) := by
  rintro a b x y rfl rfl -
  rfl

theorem PrefixFree.followed (hfirst : PrefixFree first) (hsecond : PrefixFree second) :
    PrefixFree (Followed first second) := by
  rintro _ _ x y ⟨a, b, ha, hb, rfl⟩ ⟨a', b', ha', hb', rfl⟩ heq
  rw [List.append_assoc, List.append_assoc] at heq
  obtain rfl := hfirst ha ha' heq
  rw [hsecond hb hb' (List.append_cancel_left heq)]

theorem PrefixFree.isType : PrefixFree IsType := by
  intro a b x y ha
  induction ha generalizing b with
  | name =>
      intro hb heq
      cases hb with
      | name => rfl
      | function _ => cases heq
  | function _ ih =>
      intro hb heq
      cases hb with
      | name => cases heq
      | function hb =>
          simp only [List.cons_append, List.cons.injEq, true_and] at heq
          rw [ih hb heq]

/-- No type starts with a literal. -/
theorem PrefixFree.isValue : PrefixFree IsValue := by
  intro a b x y ha hb heq
  cases ha with
  | literal =>
      cases hb with
      | literal => rfl
      | type hb => cases hb <;> cases heq
  | type ha =>
      cases hb with
      | literal => cases ha <;> cases heq
      | type hb => exact PrefixFree.isType ha hb heq

/-! ## Where reading stops -/

variable {s t : TokenStream} {e : SyntaxError} {construct : Construct}

/-- An error names a token that no sentence has at its place, after tokens that begin one. -/
def Strays (language : List TokenKind → Prop) (s : TokenStream) (e : SyntaxError) : Prop :=
  ∃ before, ∃ stop : TokenStream, ∃ construct, s.tokens = before ++ stop.tokens ∧
    e = stop.unexpected construct ∧ Begins language (before.map Token.kind) ∧
    Excludes language (before.map Token.kind ++ [stop.current.kind])

/-- The first token starts no sentence. -/
theorem Strays.here (hsome : Begins language [])
    (hstart : ∀ sentence more rest, language sentence →
      sentence ++ more ≠ s.current.kind :: rest) :
    Strays language s (s.unexpected construct) :=
  ⟨[], s, construct, rfl, rfl, hsome, hstart⟩

theorem Strays.left (hsecond : Begins second []) (h : Strays first s e) :
    Strays (Followed first second) s e := by
  obtain ⟨before, stop, construct, hs, rfl, ⟨rest, hrest⟩, hstop⟩ := h
  obtain ⟨b, hb⟩ := hsecond
  refine ⟨before, stop, construct, hs, rfl, ⟨rest ++ b, _, b, hrest, hb, ?_⟩, ?_⟩
  · rw [List.append_assoc]
  · rintro _ more rest ⟨a, b, ha, -, rfl⟩ heq
    exact hstop a (b ++ more) rest ha (by rw [← heq, List.append_assoc])

/-- Where the first part ends, the sentences that have another first part are left behind. -/
theorem Strays.right (hfree : PrefixFree first) {tokens : List Token}
    (hs : s.tokens = tokens ++ t.tokens) (hfirst : first (tokens.map Token.kind))
    (h : Strays second t e) : Strays (Followed first second) s e := by
  obtain ⟨before, stop, construct, ht, rfl, ⟨rest, hrest⟩, hstop⟩ := h
  refine ⟨tokens ++ before, stop, construct, ?_, rfl, ⟨rest, _, _, hfirst, hrest, ?_⟩, ?_⟩
  · rw [hs, ht, List.append_assoc]
  · rw [List.map_append, List.append_assoc]
  · rintro _ more rest ⟨a, b, ha, hb, rfl⟩ heq
    simp only [List.map_append, List.append_assoc] at heq
    obtain rfl := hfree ha hfirst heq
    refine hstop b more rest hb ?_
    rw [List.append_cancel_left heq, List.append_assoc]

/-- The sentences with another first token do not matter. -/
theorem Strays.among (hwide : ∀ kinds, narrow kinds → wide kinds)
    (hnarrow : ∀ sentence more rest, wide sentence →
      sentence ++ more = s.current.kind :: rest → narrow sentence)
    (h : Strays narrow s e) : Strays wide s e := by
  obtain ⟨before, stop, construct, hs, rfl, ⟨rest, hrest⟩, hstop⟩ := h
  refine ⟨before, stop, construct, hs, rfl, ⟨rest, hwide _ hrest⟩, ?_⟩
  have hstart : ∃ after,
      before.map Token.kind ++ [stop.current.kind] = s.current.kind :: after := by
    cases before with
    | nil => exact ⟨[], by rw [(List.cons.inj hs).1]; rfl⟩
    | cons token before => exact ⟨_, by rw [(List.cons.inj hs).1]; rfl⟩
  obtain ⟨after, hafter⟩ := hstart
  intro sentence more rest hsentence heq
  refine hstop sentence more rest (hnarrow sentence more (after ++ rest) hsentence ?_) heq
  rw [heq, hafter, List.cons_append]

end Languages

/-! ## Readers -/

/-- Tokens that may be read: the last one alone is the end of the file, and their values fit. -/
structure Fit (tokens : List Token) : Prop where
  endsOnce : EndsOnce tokens
  carries : ∀ token ∈ tokens, token.Carries

section Readers

variable {s t : TokenStream} {e : SyntaxError} {construct : Construct} {kind : TokenKind}

theorem Fit.of_append {first : List Token} (h : Fit s.tokens) (hs : s.tokens = first ++ t.tokens) :
    Fit t.tokens where
  endsOnce := (hs ▸ h.endsOnce).of_append (by simp [TokenStream.tokens])
  carries token htoken := h.carries token (by rw [hs]; exact List.mem_append_right first htoken)

/-- A token that is not the end of the file is moved over. -/
theorem Fit.tokens_eq (h : Fit s.tokens) (hkind : s.current.kind = kind) (hne : kind ≠ .endOfFile) :
    s.tokens = [s.current] ++ s.advance.tokens :=
  (TokenStream.tokens_eq_cons h.endsOnce (hkind ▸ hne)).1

theorem Fit.advance (h : Fit s.tokens) (hkind : s.current.kind = kind) (hne : kind ≠ .endOfFile) :
    Fit s.advance.tokens :=
  h.of_append (h.tokens_eq hkind hne)

theorem Fit.current (h : Fit s.tokens) : s.current.Carries :=
  h.carries s.current (List.mem_cons_self ..)

variable {second : List TokenKind → Prop}

theorem Strays.expected (hsecond : Begins second []) (hkind : s.current.kind ≠ kind) :
    Strays (Followed (Only kind) second) s (s.unexpected construct) := by
  refine Strays.here ((Begins.only kind).followed hsecond) ?_
  rintro _ more rest ⟨_, b, rfl, -, rfl⟩ heq
  exact hkind (List.cons.inj heq).1.symm

/-- Behind a token that fits, the second part strays. -/
theorem Strays.next (h : Fit s.tokens) (hkind : s.current.kind = kind) (hne : kind ≠ .endOfFile)
    (hsecond : Strays second s.advance e) : Strays (Followed (Only kind) second) s e :=
  .right (.only kind) (h.tokens_eq hkind hne) (congrArg (fun kind => [kind]) hkind) hsecond

theorem Strays.expect_bind {α : Type} {next : Token × TokenStream → Except SyntaxError α}
    (h : Fit s.tokens) (hne : kind ≠ .endOfFile) (hsecond : Begins second [])
    (hnext : ∀ {token t}, Fit t.tokens → token.kind = kind → token.Carries →
      next (token, t) = .error e → Strays second t e)
    (herror : (s.expect kind construct >>= next) = .error e) :
    Strays (Followed (Only kind) second) s e := by
  by_cases hat : s.current.kind = kind
  · refine .next h hat hne (hnext (h.advance hat hne) hat h.current ?_)
    simpa [TokenStream.expect, TokenStream.isAt, hat, Bind.bind, Except.bind] using herror
  · obtain rfl : s.unexpected construct = e := by
      simpa [TokenStream.expect, TokenStream.isAt, hat, Bind.bind, Except.bind] using herror
    exact Strays.expected hsecond hat

/-! ### Types and values -/

theorem Begins.isType : Begins IsType [] := ⟨_, .name⟩

theorem Begins.isValue : Begins IsValue [] := ⟨_, .literal⟩

theorem Begins.result : Begins (Followed (Only (.symbol .arrow)) IsType) [] :=
  (Begins.only _).followed .isType

/-- `funtype := ( ) -> type` -/
def IsFunctionType : List TokenKind → Prop :=
  Followed (Only (.symbol .leftParen)) (Followed (Only (.symbol .rightParen))
    (Followed (Only (.symbol .arrow)) IsType))

theorem IsFunctionType.isType {kinds : List TokenKind} (h : IsFunctionType kinds) :
    IsType kinds := by
  simp only [IsFunctionType, followed_only_iff] at h
  obtain ⟨_, ⟨_, ⟨type, htype, rfl⟩, rfl⟩, rfl⟩ := h
  exact .function htype

theorem Strays.functionType (hopen : s.current.kind = .symbol .leftParen)
    (h : Strays IsFunctionType s e) : Strays IsType s e := by
  refine h.among (fun _ => IsFunctionType.isType) ?_
  rintro _ more rest (_ | htype) heq
  · rw [hopen] at heq
    cases heq
  · exact .cons (.cons (.cons htype))

theorem TypeSyntax.readInside_strays {opens : List Position} (h : Fit s.tokens)
    (herror : TypeSyntax.readInside opens construct s = .error e) : Strays IsType s e := by
  fun_induction TypeSyntax.readInside opens construct s with
  | case1 opens construct s hkind =>
      obtain ⟨name, hname⟩ := h.current.ident hkind
      rw [Except.map_eq_error_iff, Token.ident_eq_ok_iff.mpr hname] at herror
      cases herror
  | case2 opens construct s _ hopen close hclose arrow harrow _ _ _ ih =>
      have harrow : arrow.current.kind = .symbol .arrow := by
        simpa [TokenStream.isAt] using harrow
      have h₁ := h.advance hopen (by simp)
      have h₂ := h₁.advance hclose (by simp)
      have h₃ := h₂.advance harrow (by simp)
      exact .functionType hopen (.next h hopen (by simp) (.next h₁ hclose (by simp)
        (.next h₂ harrow (by simp) (ih h₃ herror))))
  | case3 opens construct s _ hopen close hclose arrow harrow =>
      have harrow : arrow.current.kind ≠ .symbol .arrow := by
        simpa [TokenStream.isAt] using harrow
      have h₁ := h.advance hopen (by simp)
      cases herror
      exact .functionType hopen (.next h hopen (by simp) (.next h₁ hclose (by simp)
        (.expected .isType harrow)))
  | case4 opens construct s _ hopen close hclose =>
      cases herror
      exact .functionType hopen (.next h hopen (by simp) (.expected .result hclose))
  | case5 opens construct s hident hopen =>
      cases herror
      refine .here .isType ?_
      rintro _ more rest (_ | _) heq
      · exact hident (List.cons.inj heq).1.symm
      · exact hopen (List.cons.inj heq).1.symm

theorem ValueSyntax.read_strays (h : Fit s.tokens) (herror : ValueSyntax.read s = .error e) :
    Strays IsValue s e := by
  unfold ValueSyntax.read at herror
  split at herror
  · rename_i hat
    obtain ⟨value, hvalue⟩ := h.current.int (by simpa [TokenStream.isAt] using hat)
    rw [Except.map_eq_error_iff, Token.int_eq_ok_iff.mpr hvalue] at herror
    cases herror
  · rename_i hat
    have htype := TypeSyntax.readInside_strays h (Except.map_eq_error_iff.mp herror)
    refine htype.among (fun _ => .type) ?_
    rintro _ more rest (_ | htype) heq
    · refine absurd (List.cons.inj heq).1.symm ?_
      simpa [TokenStream.isAt] using hat
    · exact htype

/-! ### The parts of an item -/

/-- `header := def IDENT ( ) -> type` -/
def IsHeader : List TokenKind → Prop :=
  Followed (Only (.keyword .def_)) (Followed (Only .identifier) IsFunctionType)

/-- `statement := { return value` -/
def IsStatement : List TokenKind → Prop :=
  Followed (Only (.symbol .leftBrace)) (Followed (Only (.keyword .return_)) IsValue)

/-- `close := } EOF` -/
def IsClose : List TokenKind → Prop :=
  Followed (Only (.symbol .rightBrace)) (Only .endOfFile)

theorem Begins.isFunctionType : Begins IsFunctionType [] :=
  (Begins.only _).followed ((Begins.only _).followed .result)

theorem Begins.isStatement : Begins IsStatement [] :=
  (Begins.only _).followed ((Begins.only _).followed .isValue)

theorem Begins.isEnd : Begins IsEnd [] := ⟨_, .plain⟩

theorem PrefixFree.isHeader : PrefixFree IsHeader :=
  (PrefixFree.only _).followed ((PrefixFree.only _).followed ((PrefixFree.only _).followed
    ((PrefixFree.only _).followed ((PrefixFree.only _).followed .isType))))

theorem PrefixFree.isStatement : PrefixFree IsStatement :=
  (PrefixFree.only _).followed ((PrefixFree.only _).followed .isValue)

theorem HeaderSyntax.read_strays (h : Fit s.tokens) (herror : HeaderSyntax.read s = .error e) :
    Strays IsHeader s e := by
  refine Strays.expect_bind h (by simp) ((Begins.only _).followed .isFunctionType) ?_ herror
  intro _ s₁ h₁ _ _ herror
  refine Strays.expect_bind h₁ (by simp) .isFunctionType ?_ herror
  intro word s₂ h₂ hword hcarries herror
  obtain ⟨name, hname⟩ := hcarries.ident hword
  obtain hident | ⟨_, _, herror⟩ := Except.bind_eq_error_iff.mp herror
  · rw [Token.ident_eq_ok_iff.mpr hname] at hident
    cases hident
  refine Strays.expect_bind h₂ (by simp) ((Begins.only _).followed .result) ?_ herror
  intro _ s₃ h₃ _ _ herror
  refine Strays.expect_bind h₃ (by simp) .result ?_ herror
  intro _ s₄ h₄ _ _ herror
  refine Strays.expect_bind h₄ (by simp) .isType ?_ herror
  intro _ s₅ h₅ _ _ herror
  obtain herror | ⟨_, _, herror⟩ := Except.bind_eq_error_iff.mp herror
  · exact TypeSyntax.readInside_strays h₅ herror
  · cases herror

theorem StatementSyntax.read_strays (h : Fit s.tokens)
    (herror : StatementSyntax.read s = .error e) : Strays IsStatement s e := by
  refine Strays.expect_bind h (by simp) ((Begins.only _).followed .isValue) ?_ herror
  intro _ s₁ h₁ _ _ herror
  refine Strays.expect_bind h₁ (by simp) .isValue ?_ herror
  intro _ s₂ h₂ _ _ herror
  obtain herror | ⟨_, _, herror⟩ := Except.bind_eq_error_iff.mp herror
  · exact ValueSyntax.read_strays h₂ herror
  · cases herror

theorem readClose_strays (h : Fit s.tokens) (herror : readClose s = .error e) :
    Strays IsClose s e := by
  refine Strays.expect_bind h (by simp) (.only _) ?_ herror
  intro _ t _ _ _ herror
  obtain herror | ⟨_, _, herror⟩ := Except.bind_eq_error_iff.mp herror
  · unfold TokenStream.expect at herror
    split at herror
    · cases herror
    · rename_i hat
      cases herror
      refine .here (.only _) ?_
      rintro _ more rest rfl heq
      refine absurd (List.cons.inj heq).1.symm ?_
      simpa [TokenStream.isAt] using hat
  · cases herror

theorem IsClose.isEnd {kinds : List TokenKind} (h : IsClose kinds) : IsEnd kinds := by
  obtain ⟨_, _, rfl, rfl, rfl⟩ := h
  exact .plain

/-- The semicolon that may be skipped before the end is a part of the end. -/
theorem readClose_skipIf_strays (h : Fit s.tokens)
    (herror : readClose (s.skipIf (.symbol .semicolon)).2 = .error e) : Strays IsEnd s e := by
  by_cases hat : s.current.kind = .symbol .semicolon
  · rw [TokenStream.skipIf, if_pos (by simpa [TokenStream.isAt] using hat)] at herror
    have hend : Strays (Followed (Only (.symbol .semicolon)) IsClose) s e :=
      .next h hat (by simp) (readClose_strays (h.advance hat (by simp)) herror)
    refine hend.among ?_ ?_
    · rintro _ ⟨_, _, rfl, ⟨_, _, rfl, rfl, rfl⟩, rfl⟩
      exact IsEnd.semicolon
    · rintro _ more rest (_ | _) heq
      · rw [hat] at heq
        cases heq
      · exact .cons (.cons rfl)
  · rw [TokenStream.skipIf, if_neg (by simpa [TokenStream.isAt] using hat)] at herror
    refine (readClose_strays h herror).among (fun _ => IsClose.isEnd) ?_
    rintro _ more rest (_ | _) heq
    · exact .cons rfl
    · exact absurd (List.cons.inj heq).1.symm hat

/-! ### Items -/

theorem DerivesHeader.isHeader {tokens : List Token} {header : HeaderSyntax}
    (h : DerivesHeader tokens header) : IsHeader (tokens.map Token.kind) := by
  obtain ⟨hstart, hword, -, hopening, hclosing, harrow, htype⟩ := h
  simp only [List.map_cons, hstart, hword, hopening, hclosing, harrow]
  exact .cons (.cons (.cons (.cons (.cons htype.isType))))

theorem DerivesStatement.isStatement {tokens : List Token} {statement : StatementSyntax}
    (h : DerivesStatement tokens statement) : IsStatement (tokens.map Token.kind) := by
  obtain ⟨hbrace, hreturn, hvalue⟩ := h
  simp only [List.map_cons, hbrace, hreturn]
  exact .cons (.cons hvalue.isValue)

/-- An item is its header, then its statement, then its end. -/
theorem isItem_iff {kinds : List TokenKind} :
    IsItem kinds ↔ Followed IsHeader (Followed IsStatement IsEnd) kinds := by
  constructor
  · rintro ⟨htype, hvalue, hend⟩
    exact ⟨_, _, .cons (.cons (.cons (.cons (.cons htype)))),
      ⟨_, _, .cons (.cons hvalue), hend, rfl⟩, by simp⟩
  · rintro ⟨_, _, hheader, ⟨_, _, hstatement, hend, rfl⟩, rfl⟩
    simp only [IsHeader, IsFunctionType, followed_only_iff] at hheader
    simp only [IsStatement, followed_only_iff] at hstatement
    obtain ⟨_, ⟨_, ⟨_, ⟨_, ⟨type, htype, rfl⟩, rfl⟩, rfl⟩, rfl⟩, rfl⟩ := hheader
    obtain ⟨_, ⟨value, hvalue, rfl⟩, rfl⟩ := hstatement
    simpa using IsItem.mk htype hvalue hend

theorem readItem_strays (h : Fit s.tokens) (herror : readItem s.tokens = .error e) :
    Strays IsItem s e := by
  have hbody : Begins (Followed IsStatement IsEnd) [] := Begins.isStatement.followed .isEnd
  suffices hparts : Strays (Followed IsHeader (Followed IsStatement IsEnd)) s e from
    hparts.among (fun _ => isItem_iff.mpr) fun _ _ _ hitem _ => isItem_iff.mp hitem
  rw [readItem, TokenStream.ofTokens_tokens h.endsOnce] at herror
  change (HeaderSyntax.read s >>= _) = _ at herror
  obtain hheader | ⟨⟨header, inner⟩, hheader, herror⟩ := Except.bind_eq_error_iff.mp herror
  · exact (HeaderSyntax.read_strays h hheader).left hbody
  obtain ⟨first, hs, -, hderives⟩ := HeaderSyntax.read_sound h.endsOnce hheader
  have hinner := h.of_append hs
  refine .right .isHeader hs hderives.isHeader ?_
  obtain hstatement | ⟨⟨statement, close⟩, hstatement, herror⟩ :=
    Except.bind_eq_error_iff.mp herror
  · exact (StatementSyntax.read_strays hinner hstatement).left .isEnd
  obtain ⟨second, rest, hs, -, hderives, rfl⟩ :=
    StatementSyntax.read_sound hinner.endsOnce hstatement
  refine .right .isStatement hs hderives.isStatement ?_
  obtain hclose | ⟨_, _, herror⟩ := Except.bind_eq_error_iff.mp herror
  · exact readClose_skipIf_strays (hinner.of_append hs) hclose
  · cases herror

end Readers

/-! ## What is left of an item -/

namespace CompilationUnit

variable {u v w : CompilationUnit hash} {tokens : List Token} {e : SyntaxError}

/-- Expressions are appended about which nothing is known. All else stays. -/
def AppendsExprs (u v : CompilationUnit hash) : Prop :=
  ∃ added : Array ExprNode, v = { u with
    exprs := u.exprs ++ added
    findings := u.findings ++ Array.replicate added.size {} }

theorem AppendsExprs.refl (u : CompilationUnit hash) : u.AppendsExprs u :=
  ⟨#[], by simp⟩

theorem AppendsExprs.trans (huv : u.AppendsExprs v) (hvw : v.AppendsExprs w) :
    u.AppendsExprs w := by
  obtain ⟨added, rfl⟩ := huv
  obtain ⟨more, rfl⟩ := hvw
  refine ⟨added ++ more, ?_⟩
  simp [Array.append_assoc, Array.replicate_append_replicate]

theorem appendsExprs_addExpr (u : CompilationUnit hash) (expr : Expr) (pos : Position) :
    u.AppendsExprs (u.addExpr expr pos).2 :=
  ⟨#[⟨expr, pos⟩], by simp [addExpr, Array.replicate_succ]⟩

theorem appendsExprs_wrapInFunctionTypes (u : CompilationUnit hash) (id : ExprId)
    (positions : List Position) : u.AppendsExprs (u.wrapInFunctionTypes id positions).2 := by
  induction positions generalizing u id with
  | nil => exact .refl u
  | cons pos rest ih => exact (appendsExprs_addExpr u _ pos).trans (ih _ _)

theorem appendsExprs_addTypeSyntax (u : CompilationUnit hash) (type : TypeSyntax) :
    u.AppendsExprs (u.addTypeSyntax type).2 :=
  (appendsExprs_addExpr u _ _).trans (appendsExprs_wrapInFunctionTypes _ _ _)

theorem appendsExprs_addSignature (u : CompilationUnit hash) (header : HeaderSyntax) :
    u.AppendsExprs (u.addSignature header).2 :=
  (appendsExprs_addTypeSyntax u _).trans (appendsExprs_addExpr _ _ _)

theorem appendsExprs_addStatement (u : CompilationUnit hash) (statement : StatementSyntax) :
    u.AppendsExprs (u.addStatement statement).2 := by
  have hvalue : u.AppendsExprs (u.addValueSyntax statement.value).2 := by
    cases statement.value with
    | literal value pos => exact appendsExprs_addExpr u _ pos
    | type type => exact appendsExprs_addTypeSyntax u type
  exact hvalue.trans (appendsExprs_addExpr _ _ _)

/-- An item that is not read leaves at most the expressions of its first parts. -/
theorem parse_appendsExprs (herror : (u.parse tokens).1 = .error e) :
    u.AppendsExprs (u.parse tokens).2 := by
  unfold parse at herror ⊢
  cases hstart : TokenStream.ofTokens tokens with
  | error e' => exact .refl u
  | ok start =>
      simp only [hstart, parseStream] at herror ⊢
      cases hheader : HeaderSyntax.read start with
      | error e' => exact .refl u
      | ok readHeader =>
          have hsignature := appendsExprs_addSignature u readHeader.1
          simp only [hheader] at herror ⊢
          cases hstatement : StatementSyntax.read readHeader.2 with
          | error e' => exact hsignature
          | ok readStatement =>
              have hbody := appendsExprs_addStatement (u.addSignature readHeader.1).2
                readStatement.1
              simp only [hstatement] at herror ⊢
              cases hclose : readClose readStatement.2 with
              | error e' => exact hsignature.trans hbody
              | ok done => simp [hclose] at herror

theorem AppendsExprs.findingsOf_eq (h : u.AppendsExprs v) (id : ExprId) :
    v.findingsOf id = u.findingsOf id := by
  obtain ⟨added, rfl⟩ := h
  simp only [findingsOf, Array.getD_eq_getD_getElem?, Array.getElem?_append,
    Array.getElem?_replicate]
  split
  · rfl
  · rw [Array.getElem?_eq_none (by omega)]
    split <;> rfl

/-- Nothing is found by parsing. -/
theorem parse_findingsOf (u : CompilationUnit hash) (tokens : List Token) (id : ExprId) :
    (u.parse tokens).2.findingsOf id = u.findingsOf id := by
  cases hread : readItem tokens with
  | error e => exact (parse_appendsExprs (parse_of_readItem_eq_error u hread)).findingsOf_eq id
  | ok parts =>
      obtain ⟨function, -, hchains, -⟩ := parse_twoChains u hread
      exact hchains.findingsOf_eq id

theorem readItem_of_parse_eq_error (herror : (u.parse tokens).1 = .error e) :
    readItem tokens = .error e := by
  cases hread : readItem tokens with
  | error e' =>
      rw [parse_of_readItem_eq_error u hread] at herror
      cases herror
      rfl
  | ok parts =>
      rw [parse_of_readItem_eq_ok u hread] at herror
      cases herror

/-- Tokens are not parsed because of one of them, at which no sentence goes on although the kinds
before it begin one. The item is not made, and what was there before stays as it was. -/
theorem parse_error_correct_prefix (hends : EndsOnce tokens)
    (hcarries : ∀ token ∈ tokens, token.Carries) (herror : (u.parse tokens).1 = .error e) :
    (∃ construct i, ∃ hi : i < tokens.length,
      e = .unexpected ⟨construct, tokens[i].kind, tokens[i].pos⟩ ∧
      Begins IsItem ((tokens.take i).map Token.kind) ∧
      ¬ Begins IsItem ((tokens.take (i + 1)).map Token.kind)) ∧
    u.AppendsExprs (u.parse tokens).2 := by
  refine ⟨?_, parse_appendsExprs herror⟩
  obtain ⟨s, rfl, -⟩ := TokenStream.exists_ofTokens hends
  obtain ⟨before, stop, construct, hs, rfl, hbegins, hexcludes⟩ :=
    readItem_strays ⟨hends, hcarries⟩ (readItem_of_parse_eq_error herror)
  have hall : s.tokens = before ++ stop.current :: stop.rest := hs
  have hplace : before.length < s.tokens.length := by simp [hall]
  have hfound : s.tokens[before.length] = stop.current := by simp [hall]
  have htake : s.tokens.take (before.length + 1) = before ++ [stop.current] := by
    simp [hall, List.take_append]
  refine ⟨construct, before.length, hplace, ?_, ?_, ?_⟩
  · rw [hfound, TokenStream.unexpected]
  · rwa [hall, List.take_left]
  · rw [htake, List.map_append]
    exact hexcludes.not_begins

/-- A function without its closing brace is read up to the end of the file. -/
theorem parse_unclosed_correct_prefix :
    let tokens := (literalFunction ⟨1⟩ 1).eraseIdx 12
    (twoNames.parse tokens).1 = .error (.unexpected ⟨.statement, .endOfFile, .start⟩) ∧
      Begins IsItem ((tokens.take 12).map Token.kind) ∧
      ¬ Begins IsItem ((tokens.take 13).map Token.kind) ∧
      twoNames.AppendsExprs (twoNames.parse tokens).2 := by
  intro tokens
  have hends : EndsOnce tokens := by
    repeat first
      | exact .last rfl
      | refine .cons (by decide) ?_
  have hcarries : ∀ token ∈ tokens, token.Carries := fun token htoken =>
    literalFunction_carries token (List.mem_of_mem_eraseIdx htoken)
  have herror : (twoNames.parse tokens).1 =
      .error (.unexpected ⟨.statement, .endOfFile, .start⟩) := by
    decide +kernel
  obtain ⟨⟨construct, i, hi, heq, hbegins, hstops⟩, hleft⟩ :=
    parse_error_correct_prefix hends hcarries herror
  have hlast : ∀ i, ∀ hi : i < tokens.length, tokens[i].kind = .endOfFile → i = 12 := by decide
  have hfound := congrArg UnexpectedToken.found (SyntaxError.unexpected.inj heq)
  obtain rfl := hlast i hi hfound.symm
  exact ⟨herror, hbegins, hstops, hleft⟩

end CompilationUnit

end FrontEnd
