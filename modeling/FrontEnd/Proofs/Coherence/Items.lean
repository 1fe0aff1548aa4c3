import FrontEnd.Proofs.Coherence.Units
import FrontEnd.Proofs.Grammar.Names

/-! # Sources and items of coherent units

Reading, parsing and binding leave coherent units, also where they end in an error: all that they
have made by then is whole. -/

namespace FrontEnd

variable {hash : Hasher}

/-- All declarations in a table are there. -/
structure Bindings.InRange (u : CompilationUnit hash) (table : Bindings hash) : Prop where
  wellFormed : table.WellFormed
  declarations : ∀ name decl, table.lookup name = some decl → decl.index < u.declarations.size

namespace Bindings.InRange

variable {u v : CompilationUnit hash} {table opened : Bindings hash}

theorem grow (hgrown : u.Grown v) (h : table.InRange u) : table.InRange v where
  wellFormed := h.wellFormed
  declarations name decl hname :=
    Nat.lt_of_lt_of_le (h.declarations name decl hname) hgrown.declarations.size_le

/-- A scope with one more declaration. -/
theorem inside (h : table.InRange u) {name : Name} {decl : DeclId}
    (hdecl : decl.index < u.declarations.size) (hok : table.push.insert name decl = .ok opened) :
    opened.InRange u := by
  obtain ⟨opened', hopened, hafter, -, -, hlookup⟩ := h.wellFormed.push_insert name decl
  obtain rfl := Except.ok.inj (hopened.symm.trans hok)
  refine ⟨hafter, fun other found hfound => ?_⟩
  rw [hlookup] at hfound
  split at hfound
  · cases hfound
    exact hdecl
  · exact h.declarations other found hfound

end Bindings.InRange

/-- The table of a prelude has the declarations of its names. -/
theorem Bindings.ofPrelude_inRange {u : CompilationUnit hash} {prelude : Prelude}
    {table : Bindings hash} (hprelude : prelude = .empty ∨ prelude.IsStandard u)
    (hok : Bindings.ofPrelude prelude = .ok table) : table.InRange u := by
  rcases hprelude with rfl | ⟨name, binding, constant, hentries, -, hbinding, -⟩
  · cases hok
    have hempty : (.empty : Bindings hash).WellFormed := Scopes.empty_wellFormed
    refine ⟨hempty.push, fun name decl hname => ?_⟩
    rw [hempty.lookup_push] at hname
    cases hname
  · obtain ⟨table', htable, hwellFormed, hlookup⟩ := ofPrelude_eq hash hentries
    obtain rfl := Except.ok.inj (htable.symm.trans hok)
    refine ⟨hwellFormed, fun other decl hother => ?_⟩
    rw [hlookup] at hother
    split at hother <;> cases hother
    exact hbinding.lt

theorem ValueSyntax.AllNames.grow {u v : CompilationUnit hash} (hgrown : u.Grown v)
    {value : ValueSyntax} (h : value.AllNames u.Knows) : value.AllNames v.Knows := by
  cases value with
  | literal value pos => exact fun name hname => (h name hname).grow hgrown
  | type type => exact CompilationUnit.Knows.grow hgrown h

namespace CompilationUnit

variable {u v : CompilationUnit hash} {id : ExprId}

theorem Coherent.tokenizeSource (h : u.Coherent) (config : LayoutConfig) {source : SourceId}
    (hroom : u.names.size + (Reading.ofSource config (u.source source).content.bytes).lexemes.length
      < 2 ^ 32) : u.Advances (u.tokenizeSource config source).2 := by
  obtain ⟨hnames, hextends⟩ := tokenize_names_spec h.names config hroom
  exact h.names_advance hnames hextends

/-! ## Parsing -/

/-- An expression was built, last of all. -/
structure Builds (u : CompilationUnit hash) (built : ExprId × CompilationUnit hash) : Prop
    extends Advances u built.2 where
  lt : built.1.index < built.2.exprs.size

theorem Coherent.builds_addExpr (h : u.Coherent) {expr : Expr} (hexpr : u.ExprFits expr)
    (pos : Position) : u.Builds (u.addExpr expr pos) :=
  ⟨h.addExpr hexpr pos, (holds_addExpr u expr pos).lt⟩

/-- An expression of one child is built around another one. -/
theorem Builds.around {built : ExprId × CompilationUnit hash} (h : u.Builds built) {expr : Expr}
    (hname : expr.name? = none) (hchild : expr.child? = some built.1) (pos : Position) :
    u.Builds (built.2.addExpr expr pos) := by
  have hfits : built.2.ExprFits expr := by
    refine ⟨fun name hsome => ?_, fun child hsome => ?_⟩
    · cases hname.symm.trans hsome
    · cases hchild.symm.trans hsome
      exact h.lt
  have hadded := h.coherent.builds_addExpr hfits pos
  exact ⟨h.toAdvances.trans hadded.toAdvances, hadded.lt⟩

theorem Builds.wrapInFunctionTypes {built : ExprId × CompilationUnit hash} (h : u.Builds built)
    (opens : List Position) : u.Builds (built.2.wrapInFunctionTypes built.1 opens) := by
  induction opens generalizing built with
  | nil => exact h
  | cons pos rest ih => exact ih (h.around rfl rfl pos)

theorem Coherent.addTypeSyntax (h : u.Coherent) {type : TypeSyntax} (hbase : u.Knows type.base) :
    u.Builds (u.addTypeSyntax type) := by
  have hfits : u.ExprFits (.name type.base) := by
    refine ⟨fun name hname => ?_, nofun⟩
    cases hname
    exact hbase
  exact (h.builds_addExpr hfits type.basePos).wrapInFunctionTypes type.opens

theorem Coherent.addValueSyntax (h : u.Coherent) {value : ValueSyntax}
    (hvalue : value.AllNames u.Knows) : u.Builds (u.addValueSyntax value) := by
  cases value with
  | literal value pos => exact h.builds_addExpr ⟨hvalue, nofun⟩ pos
  | type type => exact h.addTypeSyntax hvalue

theorem Coherent.addSignature (h : u.Coherent) {header : HeaderSyntax}
    (hresult : u.Knows header.result.base) : u.Builds (u.addSignature header) :=
  (h.addTypeSyntax hresult).around rfl rfl header.params

theorem Coherent.addStatement (h : u.Coherent) {statement : StatementSyntax}
    (hvalue : statement.value.AllNames u.Knows) : u.Builds (u.addStatement statement) :=
  (h.addValueSyntax hvalue).around rfl rfl statement.pos

theorem Coherent.parseStream (h : u.Coherent) {start : TokenStream}
    (hstart : Token.AllNames u.Knows start.tokens) : u.Advances (u.parseStream start).2 := by
  unfold CompilationUnit.parseStream
  cases hheader : HeaderSyntax.read start with
  | error e => exact h.stays
  | ok readHeader =>
      obtain ⟨header, inner⟩ := readHeader
      obtain ⟨hname, hresult, hinner⟩ := HeaderSyntax.read_allNames hstart hheader
      have hsignature := h.addSignature hresult
      dsimp only
      cases hstatement : StatementSyntax.read inner with
      | error e => exact hsignature.toAdvances
      | ok readStatement =>
          obtain ⟨statement, close⟩ := readStatement
          have hvalue := StatementSyntax.read_allNames hinner hstatement
          have hbody := hsignature.coherent.addStatement (hvalue.grow hsignature.grown)
          have hbuilt := hsignature.toAdvances.trans hbody.toAdvances
          dsimp only
          cases readClose close with
          | error e => exact hbuilt
          | ok done => exact hbuilt.trans (hbuilt.coherent.addItem
              ⟨hname.grow hbuilt.grown, hbody.expr_lt hsignature.lt, hbody.lt⟩)

theorem Coherent.parse (h : u.Coherent) {tokens : List Token}
    (htokens : Token.AllNames u.Knows tokens) : u.Advances (u.parse tokens).2 := by
  unfold CompilationUnit.parse
  cases hstart : TokenStream.ofTokens tokens with
  | error e => exact h.stays
  | ok start =>
      refine h.parseStream ?_
      rwa [TokenStream.ofTokens_tokens_eq hstart]

/-! ## Preludes -/

theorem Coherent.prelude (h : u.Coherent) (hroom : u.names.size + 1 < 2 ^ 32) :
    u.Advances (Prelude.standard u).2 := by
  obtain ⟨hinterned, hname⟩ := h.intern BaseType.int32.name hroom
  have hfits : DeclFits _ ⟨(u.intern BaseType.int32.name).1, .builtinInt⟩ := ⟨hname, nofun, nofun⟩
  have hbinding := hinterned.coherent.addDeclaration hfits
  have hadvances := hinterned.trans hbinding
  refine hadvances.trans (hadvances.coherent.addDeclaration ⟨hname.grow hbinding.grown, ?_, nofun⟩)
  rintro value type ⟨⟩
  exact ⟨(hadvances.coherent.baseExprs .int32).lt, (hadvances.coherent.baseTypes .type).lt⟩

/-! ## Binding -/

variable {item : ItemId} {table : Bindings hash}

theorem Coherent.declareItem (h : u.Coherent) (hok : u.declareItem item = .ok v) :
    u.Advances v := by
  unfold CompilationUnit.declareItem at hok
  obtain ⟨hitem, hok⟩ := checkIndex_bind_eq_ok_iff.mp hok
  have hdecl : u.DeclFits ⟨(u.item item).name, .function item⟩ := by
    refine ⟨(h.itemsFit item _ (holdsItem_item hitem)).name, nofun, ?_⟩
    rintro other ⟨⟩
    exact hitem
  have hadded := h.addDeclaration hdecl
  split at hok
  · cases hok
  · obtain ⟨w, hw, hok⟩ := Except.bind_eq_ok_iff.mp hok
    obtain ⟨-, hok⟩ := checkIndex_bind_eq_ok_iff.mp hok
    cases hok
    exact hadded.trans (hadded.coherent.recordItemDeclaration
      (holdsDecl_addDeclaration u _).lt hw)

theorem Coherent.resolveName (h : u.Coherent) (htable : table.InRange u)
    {answer : Except BindingError Unit} (hok : u.resolveName table id = .ok (answer, v)) :
    u.Advances v := by
  unfold CompilationUnit.resolveName at hok
  obtain ⟨-, hok⟩ := checkIndex_bind_eq_ok_iff.mp hok
  dsimp only at hok
  split at hok
  · split at hok
    · cases hok
      exact h.stays
    · rename_i decl hdecl
      obtain ⟨w, hw, hok⟩ := Except.bind_eq_ok_iff.mp hok
      cases hok
      exact h.record hw (htable.declarations _ decl hdecl)
  · cases hok
    exact h.stays

theorem Coherent.resolveParts (h : u.Coherent) (htable : table.InRange u)
    {function : FunctionItem} {answer : Except BindingError Unit}
    (hok : u.resolveParts table function = .ok (answer, v)) : u.Advances v := by
  unfold CompilationUnit.resolveParts at hok
  split at hok
  · cases hok
  · rename_i e w hfirst
    cases hok
    exact h.resolveName htable hfirst
  · rename_i w hfirst
    have hsignature := h.resolveName htable hfirst
    exact hsignature.trans (hsignature.coherent.resolveName (htable.grow hsignature.grown) hok)

/-- What is resolved refers to declarations of the table or to that of the item. -/
theorem Coherent.resolve (h : u.Coherent) (htable : table.InRange u) {resolution : Resolution hash}
    (hok : u.resolve item table = .ok resolution) : u.Advances resolution.unit := by
  obtain ⟨-, decl, inside, hdecl, hinside, hparts, -⟩ := resolve_eq_ok_iff.mp hok
  exact h.resolveParts (htable.inside (h.itemDeclarationsFit item decl hdecl) hinside) hparts

/-- Binding leaves a coherent unit, also if a name is unbound. -/
theorem Coherent.bind (h : u.Coherent) {prelude : Prelude}
    (hprelude : prelude = .empty ∨ prelude.IsStandard u)
    {answer : Except BindingError Unit} (hok : u.bind item prelude = .ok (answer, v)) :
    u.Advances v := by
  obtain ⟨declared, table, resolution, hdeclare, htable, hresolve, -, rfl⟩ :=
    bind_eq_ok_iff.mp hok
  have hdeclared := h.declareItem hdeclare
  have hrange := Bindings.ofPrelude_inRange hprelude htable
  exact hdeclared.trans (hdeclared.coherent.resolve (hrange.grow hdeclared.grown) hresolve)

end CompilationUnit

end FrontEnd
