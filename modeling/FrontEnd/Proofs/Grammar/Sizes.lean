import FrontEnd.Proofs.CompilationUnit.Sizes
import FrontEnd.Proofs.Grammar.Parsing

/-! # Parsing adds fewer expressions than it reads tokens

A function type takes three tokens and adds one expression, and each part of an item has tokens
around it that add none. -/

namespace FrontEnd

variable {hash : Hasher}

/-- The number of function types around the name in a value. -/
def ValueSyntax.depth : ValueSyntax → Nat
  | literal _ _ => 0
  | type written => written.opens.length

/-! ## Tokens of derivations -/

variable {tokens : List Token} {header : HeaderSyntax} {statement : StatementSyntax}

theorem DerivesType.length_eq {type : TypeSyntax} (h : DerivesType tokens type) :
    tokens.length = 3 * type.opens.length + 1 := by
  induction h with
  | name _ _ => rfl
  | function _ _ _ _ ih =>
      simp only [List.length_cons, List.length_append, List.length_nil, ih]
      omega

theorem DerivesValue.length_eq {value : ValueSyntax} (h : DerivesValue tokens value) :
    tokens.length = 3 * value.depth + 1 := by
  cases h with
  | literal _ _ => rfl
  | type htype => exact htype.length_eq

theorem DerivesHeader.length_eq (h : DerivesHeader tokens header) :
    tokens.length = 3 * header.result.opens.length + 6 := by
  obtain ⟨-, -, -, -, -, -, htype⟩ := h
  simp only [List.length_cons, htype.length_eq]

theorem DerivesStatement.length_eq (h : DerivesStatement tokens statement) :
    tokens.length = 3 * statement.value.depth + 3 := by
  obtain ⟨-, -, hvalue⟩ := h
  simp only [List.length_cons, hvalue.length_eq]

theorem DerivesItem.length_ge (h : DerivesItem tokens header statement) :
    3 * (header.result.opens.length + statement.value.depth) + 11 ≤ tokens.length := by
  obtain ⟨hheader, hstatement, hend⟩ := h
  rename_i first second rest
  have hrest : 2 ≤ (rest.map Token.kind).length := by
    generalize rest.map Token.kind = kinds at hend ⊢
    cases hend with
    | plain => exact Nat.le_refl _
    | semicolon => exact Nat.le_succ _
  rw [List.length_map] at hrest
  rw [List.length_append, List.length_append, hheader.length_eq, hstatement.length_eq]
  omega

/-! ## Expressions of parts -/

namespace CompilationUnit

variable {u : CompilationUnit hash}

theorem adds_wrapInFunctionTypes (u : CompilationUnit hash) (id : ExprId) (opens : List Position) :
    u.Adds (u.wrapInFunctionTypes id opens).2 opens.length 0 := by
  induction opens generalizing u id with
  | nil => exact .refl u
  | cons pos rest ih =>
      exact ((adds_addExpr u (.functionType id) pos).trans (ih _ _)).mono
        (by rw [List.length_cons, Nat.add_comm]) (Nat.le_refl _)

theorem adds_addTypeSyntax (u : CompilationUnit hash) (type : TypeSyntax) :
    u.Adds (u.addTypeSyntax type).2 (type.opens.length + 1) 0 :=
  ((adds_addExpr u (.name type.base) type.basePos).trans
    (adds_wrapInFunctionTypes _ _ type.opens)).mono
      (Nat.le_of_eq (Nat.add_comm _ _)) (Nat.le_refl _)

theorem adds_addValueSyntax (u : CompilationUnit hash) (value : ValueSyntax) :
    u.Adds (u.addValueSyntax value).2 (value.depth + 1) 0 := by
  cases value with
  | literal number pos => exact adds_addExpr u _ _
  | type written => exact adds_addTypeSyntax u written

theorem adds_addSignature (u : CompilationUnit hash) (header : HeaderSyntax) :
    u.Adds (u.addSignature header).2 (header.result.opens.length + 2) 0 :=
  (adds_addTypeSyntax u header.result).trans (adds_addExpr _ _ _)

theorem adds_addStatement (u : CompilationUnit hash) (statement : StatementSyntax) :
    u.Adds (u.addStatement statement).2 (statement.value.depth + 2) 0 :=
  (adds_addValueSyntax u statement.value).trans (adds_addExpr _ _ _)

variable {nodes decls : Nat}

variable (u) in
/-- What is read as an item takes an expression for each function type in it and four more. -/
theorem HasRoom.parse_of_readItem (hread : readItem tokens = .ok (header, statement))
    (h : u.HasRoom (header.result.opens.length + statement.value.depth + 4 + nodes) decls)
    (hitems : u.items.size < 2 ^ 32) : (u.parse tokens).2.HasRoom nodes decls := by
  rw [parse_of_readItem_eq_ok u hread]
  have hsignature := (addSignature_spec u header).1.toQueried
  have hbuilt := hsignature.trans (addStatement_spec _ statement).1.toQueried
  have hadds := (adds_addSignature u header).trans (adds_addStatement _ statement)
  exact (h.queried hbuilt hadds (by omega) (by omega)).addItem (hbuilt.items_eq ▸ hitems) _

/-- Also an error leaves fewer expressions than there are tokens. -/
theorem HasRoom.parse (hends : EndsOnce tokens) (h : u.HasRoom (tokens.length - 4) decls)
    (hitems : u.items.size < 2 ^ 32) : (u.parse tokens).2.HasRoom 0 decls := by
  obtain ⟨s, rfl, hstart⟩ := TokenStream.exists_ofTokens hends
  unfold CompilationUnit.parse parseStream
  rw [hstart]
  dsimp only
  cases hheader : HeaderSyntax.read s with
  | error e => exact h.queried (.refl u) (.refl u) (Nat.zero_le _) (Nat.zero_le _)
  | ok readHeader =>
      obtain ⟨header, t⟩ := readHeader
      obtain ⟨first, hfirst, hrest, hderives⟩ := HeaderSyntax.read_sound hends hheader
      have hlength := congrArg List.length hfirst
      rw [List.length_append, hderives.length_eq] at hlength
      have hsignature := (addSignature_spec u header).1.toQueried
      have hadds := adds_addSignature u header
      dsimp only
      cases hstatement : StatementSyntax.read t with
      | error e => exact h.queried hsignature hadds (by omega) (Nat.zero_le _)
      | ok readStatement =>
          obtain ⟨statement, done⟩ := readStatement
          obtain ⟨second, inner, hsecond, -, hderives', -⟩ :=
            StatementSyntax.read_sound hrest hstatement
          have hlength' := congrArg List.length hsecond
          rw [List.length_append, hderives'.length_eq] at hlength'
          have hbuilt := hsignature.trans (addStatement_spec _ statement).1.toQueried
          have hafter : HasRoom _ 0 decls := h.queried hbuilt
            (hadds.trans (adds_addStatement _ statement)) (by omega) (Nat.zero_le _)
          dsimp only
          cases readClose done with
          | error e => exact hafter
          | ok closed => exact hafter.addItem (hbuilt.items_eq ▸ hitems) _

end CompilationUnit

end FrontEnd
