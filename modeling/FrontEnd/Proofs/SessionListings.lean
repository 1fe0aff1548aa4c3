import FrontEnd.Proofs.CompilationUnit.Shown
import FrontEnd.Proofs.Grammar.Names
import FrontEnd.Proofs.SessionItems
import FrontEnd.Proofs.Typing.Frames
import FrontEnd.Proofs.Coherence.Items
import FrontEnd.Proofs.Typing.ParsedItems

/-! # Items of sessions are listed

Whatever a session did, all names in its nodes are known. So every expression has a leaf that can be
shown, constant forms are no deeper than what they are forms of, and the listing of an item is the
text of the tree that is shown of it. -/

namespace FrontEnd

variable {hash : Hasher}

namespace CompilationUnit

variable {constants : Constants} {u v : CompilationUnit hash} {id : ExprId} {depth : Nat}

/-! ## Known names -/

/-- The names of items and those in expressions were all handed out. -/
structure KnowsNames (u : CompilationUnit hash) : Prop where
  exprs : ∀ id name pos, u.Holds id (.name name) pos → u.Knows name
  items : ∀ id item, u.HoldsItem id item → u.Knows item.name

theorem new_knowsNames : (new hash).KnowsNames where
  exprs id name pos h := new_coherent.exprsFit id _ pos h |>.name name rfl
  items id item h := by cases h

theorem KnowsNames.keep (h : u.KnowsNames) (hgrown : u.Grown v) (hexprs : v.exprs = u.exprs)
    (hitems : v.items = u.items) : v.KnowsNames where
  exprs id name pos hid := by
    rw [Holds, hexprs] at hid
    exact (h.exprs id name pos hid).grow hgrown
  items id item hid := by
    rw [HoldsItem, hitems] at hid
    exact (h.items id item hid).grow hgrown

/-- Questions add no names. -/
theorem KnowsNames.fills {slots : Set Slot} (h : u.KnowsNames) (hfills : u.Fills slots v) :
    v.KnowsNames where
  exprs id name pos hid := by
    rcases hfills.holds_or id _ pos hid with hold | ⟨result, hnew⟩
    · exact (h.exprs id name pos hold).grow hfills.toGrown
    · cases hnew
  items id item hid := by
    rw [HoldsItem, hfills.items_eq] at hid
    exact (h.items id item hid).grow hfills.toGrown

theorem KnowsNames.addExpr (h : u.KnowsNames) {expr : Expr}
    (hexpr : ∀ name, expr = .name name → u.Knows name) (pos : Position) :
    (u.addExpr expr pos).2.KnowsNames where
  exprs id name pos' hid := by
    rw [Holds, getElem?_addExpr] at hid
    split at hid
    · cases hid
      exact hexpr name rfl
    · exact h.exprs id name pos' hid
  items := h.items

/-- An expression that is no name adds none. -/
theorem KnowsNames.addNameless (h : u.KnowsNames) {expr : Expr} (hexpr : expr.name? = none)
    (pos : Position) : (u.addExpr expr pos).2.KnowsNames := by
  refine h.addExpr (fun name hname => ?_) pos
  rw [hname] at hexpr
  cases hexpr

theorem KnowsNames.addItem (h : u.KnowsNames) {item : FunctionItem} (hname : u.Knows item.name) :
    (u.addItem item).2.KnowsNames where
  exprs := h.exprs
  items id added hadded := by
    rw [HoldsItem, CompilationUnit.addItem, Array.getElem?_push] at hadded
    split at hadded
    · cases hadded
      exact hname
    · exact h.items id added hadded

/-! ### Parsing -/

theorem KnowsNames.wrapInFunctionTypes (h : u.KnowsNames) (opens : List Position) :
    (u.wrapInFunctionTypes id opens).2.KnowsNames := by
  induction opens generalizing u id with
  | nil => exact h
  | cons pos rest ih => exact ih (h.addNameless rfl pos)

theorem KnowsNames.addTypeSyntax (h : u.KnowsNames) {type : TypeSyntax}
    (hbase : u.Knows type.base) : (u.addTypeSyntax type).2.KnowsNames :=
  (h.addExpr (fun _ hname => Expr.name.inj hname ▸ hbase) _).wrapInFunctionTypes _

theorem KnowsNames.addSignature (h : u.KnowsNames) {header : HeaderSyntax}
    (hresult : u.Knows header.result.base) : (u.addSignature header).2.KnowsNames :=
  (h.addTypeSyntax hresult).addNameless rfl _

theorem KnowsNames.addStatement (h : u.KnowsNames) {statement : StatementSyntax}
    (hvalue : statement.value.AllNames u.Knows) : (u.addStatement statement).2.KnowsNames := by
  refine KnowsNames.addNameless ?_ rfl _
  cases hwritten : statement.value with
  | literal value pos => exact h.addExpr (fun _ hname => by cases hname) pos
  | type type =>
      rw [hwritten] at hvalue
      exact h.addTypeSyntax hvalue

/-- Whatever parsing adds has the names of the tokens. -/
theorem KnowsNames.parse (h : u.KnowsNames) {tokens : List Token}
    (htokens : Token.AllNames u.Knows tokens) : (u.parse tokens).2.KnowsNames := by
  unfold CompilationUnit.parse
  cases hstart : TokenStream.ofTokens tokens with
  | error e => exact h
  | ok start =>
      dsimp only
      unfold parseStream
      cases hheader : HeaderSyntax.read start with
      | error e => exact h
      | ok readHeader =>
          obtain ⟨header, inner⟩ := readHeader
          rw [← TokenStream.ofTokens_tokens_eq hstart] at htokens
          obtain ⟨hname, hresult, hinner⟩ := HeaderSyntax.read_allNames htokens hheader
          have hsignature := h.addSignature hresult
          have hgrown := (addSignature_spec u header).1.toGrown
          dsimp only
          cases hstatement : StatementSyntax.read inner with
          | error e => exact hsignature
          | ok readStatement =>
              have hvalue := StatementSyntax.read_allNames hinner hstatement
              have hbody := hsignature.addStatement (hvalue.grow hgrown)
              have hbuilt := hgrown.trans (addStatement_spec _ readStatement.1).1.toGrown
              dsimp only
              cases readClose readStatement.2 with
              | error e => exact hbody
              | ok done => exact hbody.addItem (hname.grow hbuilt)

/-! ## Shown trees -/

/-- Where all names are known, every expression is legible: what it leads to is older than it. -/
theorem KnowsNames.exists_legible (h : u.KnowsNames) (hdown : LeadsDown u.child?)
    (hid : id.index < u.exprs.size) : ∃ depth, u.Legible depth id := by
  induction hindex : id.index using Nat.strongRecOn generalizing id with
  | _ index ih =>
      have hholds := holds_expr hid
      cases hchild : (u.expr id).expr.child? with
      | none =>
          refine ⟨0, .leaf hholds hchild fun name hname => ?_⟩
          exact h.exprs id name _ (hname ▸ hholds)
      | some child =>
          have hlt := hdown id child ((child?_of_holds hholds).trans hchild)
          obtain ⟨depth, hlegible⟩ := ih child.index (hindex ▸ hlt) (Nat.lt_trans hlt hid) rfl
          exact ⟨depth + 1, .around hholds hchild hlegible⟩

theorem KnowsNames.legibleItem (h : u.KnowsNames) (hdown : LeadsDown u.child?)
    {item : ItemId} {function : FunctionItem} (hitem : u.HoldsItem item function)
    (hsignature : function.signature.index < u.exprs.size)
    (hbody : function.body.index < u.exprs.size) : u.LegibleItem item function where
  item := hitem
  name := h.items item function hitem
  signature := h.exists_legible hdown hsignature
  body := h.exists_legible hdown hbody

/-- Expressions that can be shown: the form in which one is shown is as deep as itself, what that
has inside is one of them again, and the type that is shown with it is there. -/
structure Showable (u : CompilationUnit hash) (part : ExprId → Prop) : Prop where
  legible : ∀ {id depth}, part id → u.Legible depth id → u.Legible depth (u.shownForm id)
  child : ∀ {id child}, part id → u.child? (u.shownForm id) = some child → part child
  type : ∀ {id}, part id → ∃ type?, u.ShowsType id (u.shownForm id) type?

namespace Showable

variable {part : ExprId → Prop}

/-- A legible expression shows a tree that is as deep as itself. -/
theorem exists_shows (h : u.Showable part) (hpart : part id) (hid : u.Legible depth id) :
    ∃ shown, u.Shows id shown ∧ shown.depth = depth := by
  induction depth generalizing id with
  | zero =>
      obtain ⟨type?, htype⟩ := h.type hpart
      have hleaf : ∃ expr pos leaf, u.Holds (u.shownForm id) expr pos ∧ u.ShowsLeaf expr leaf := by
        cases h.legible hpart hid with
        | @leaf _ expr pos hholds hchild hname =>
            cases expr with
            | intLiteral value => exact ⟨_, _, _, hholds, .literal value⟩
            | baseType kind => exact ⟨_, _, _, hholds, .baseType kind⟩
            | name name =>
                obtain ⟨text, htext⟩ := Interner.lookup_of_lt (hname name rfl)
                exact ⟨_, _, _, hholds, .name (Interner.lookup_eq_ok_iff.mp htext)⟩
            | return_ value => cases hchild
            | functionType result => cases hchild
      obtain ⟨expr, pos, leaf, hholds, hleaf⟩ := hleaf
      exact ⟨_, .leaf (shownAs_iff.mpr rfl) htype hholds hleaf, rfl⟩
  | succ depth ih =>
      obtain ⟨type?, htype⟩ := h.type hpart
      have haround : ∃ expr pos wrapper child, u.Holds (u.shownForm id) expr pos ∧
          ShowsAround expr wrapper child ∧ u.Legible depth child := by
        cases h.legible hpart hid with
        | @around _ expr pos child _ hholds hchild hinner =>
            cases expr with
            | return_ value =>
                cases hchild
                exact ⟨_, _, _, _, hholds, .return_ _, hinner⟩
            | functionType result =>
                cases hchild
                exact ⟨_, _, _, _, hholds, .functionType _, hinner⟩
            | intLiteral value => cases hchild
            | baseType kind => cases hchild
            | name name => cases hchild
      obtain ⟨expr, pos, wrapper, child, hholds, haround, hinner⟩ := haround
      have hnext := h.child hpart ((child?_of_holds hholds).trans haround.child?_eq)
      obtain ⟨shown, hshown, rfl⟩ := ih hnext hinner
      exact ⟨_, .around (shownAs_iff.mpr rfl) htype hholds haround hshown, rfl⟩

/-- An item whose signature and body can be shown is shown, and its listing ends and is the text of
what is shown. -/
theorem exists_itemListing_eq (h : u.Showable part) (hdown : LeadsDown u.child?)
    (htypes : u.TypesDescend) (hsize : u.findings.size = u.exprs.size) {item : ItemId}
    {function : FunctionItem} (hitem : u.LegibleItem item function)
    (hsignature : part function.signature) (hbody : part function.body) :
    ∃ shown, u.ShowsItem item shown ∧ u.itemListing item = .ok shown.text := by
  obtain ⟨name, hname⟩ := Interner.lookup_of_lt hitem.name
  obtain ⟨depth, hlegible⟩ := hitem.signature
  obtain ⟨depth', hlegible'⟩ := hitem.body
  obtain ⟨signature, hsignature, rfl⟩ := h.exists_shows hsignature hlegible
  obtain ⟨body, hbody, rfl⟩ := h.exists_shows hbody hlegible'
  have hshown : u.ShowsItem item ⟨name, signature, body⟩ := by
    constructor <;> rw [hitem.item.item_eq]
    · exact Interner.lookup_eq_ok_iff.mp hname
    · exact hsignature
    · exact hbody
  exact ⟨_, hshown, hshown.itemListing_eq hitem.item.lt htypes hsize
    (Nat.lt_of_le_of_lt (hlegible.depth_le hdown) hlegible.lt)
    (Nat.lt_of_le_of_lt (hlegible'.depth_le hdown) hlegible'.lt)⟩

end Showable

/-- Every type that was found can be shown, as all of them are there. -/
theorem TypesDescend.exists_showsType (h : u.TypesDescend)
    (hfound : ∀ id type, (u.findingsOf id).type = some type → type.index < u.types.size)
    (id form : ExprId) : ∃ type?, u.ShowsType id form type? := by
  cases hform : (u.findingsOf form).type with
  | some type =>
      obtain ⟨depth, base, hshape⟩ := h.exists_shape (hfound form type hform)
      exact ⟨_, .ofForm hform hshape⟩
  | none =>
      cases hself : (u.findingsOf id).type with
      | some type =>
          obtain ⟨depth, base, hshape⟩ := h.exists_shape (hfound id type hself)
          exact ⟨_, .ofItself hform hself hshape⟩
      | none => exact ⟨none, .untyped hform hself⟩

/-- Where all that was found is true, every expression can be shown. -/
theorem Sound.showable (h : u.Sound constants) (hconstants : u.ConstantsLegible constants) :
    u.Showable fun _ => True where
  legible _ hid := h.shownForm_legible hconstants hid
  child _ _ := trivial
  type {id} _ := h.typesDescend.exists_showsType
    (fun id type htype => Checker.typed_lt h (h.typed id type htype)) id (u.shownForm id)

end CompilationUnit

namespace Session

open CompilationUnit

variable {s t : Session hash}

theorem Sound.knowsNames_step (h : s.Sound) (hnames : s.unit.KnowsNames) (hstep : Step s t) :
    t.unit.KnowsNames := by
  have hgrown := (h.step hstep).2
  cases hstep with
  | intern | addSource | tokenizeSource | addFunctionType | addDeclaration | prelude =>
      exact hnames.keep hgrown rfl rfl
  | checker => exact hnames
  | parse tokens htokens => exact hnames.parse htokens
  | addExpr expr pos hexpr =>
      refine hnames.addExpr ?_ pos
      rintro name rfl
      exact hexpr.name name rfl
  | addItem item hname _ _ => exact hnames.addItem hname
  | recordItemDeclaration _ _ _ _ _ hok =>
      obtain ⟨-, -, rfl⟩ := recordItemDeclaration_eq_ok_iff.mp hok
      exact hnames.keep hgrown rfl rfl
  | recordReferent _ _ _ _ _ hok =>
      obtain ⟨-, -, rfl⟩ := record_eq_ok_iff.mp hok
      exact hnames.keep hgrown rfl rfl
  | declareItem _ _ _ hok =>
      obtain ⟨-, rfl⟩ := declareItem_eq_ok_iff.mp hok
      exact hnames.keep hgrown rfl rfl
  | resolve _ _ _ _ _ hok =>
      have hstripped := (resolve_resolved hok).stripped_eq
      exact hnames.keep hgrown (congrArg exprs hstripped :) (congrArg items hstripped :)
  | constantForm _ _ _ _ _ hok => exact hnames.fills (Checker.constantForm_fills hok)
  | denotedType _ _ _ _ hok => exact hnames.fills (Checker.denotedType_fills hok)
  | typeOf _ _ _ _ _ hok => exact hnames.fills (Checker.typeOf_fills hok)
  | check _ _ _ _ _ _ hok =>
      obtain ⟨first, hfirst, hrest⟩ := Checker.check_fills_after_form hok
      exact (hnames.fills (Checker.constantForm_fills hfirst)).fills hrest

theorem Reachable.knowsNames (h : s.Reachable) : s.unit.KnowsNames := by
  induction h with
  | refl => exact new_knowsNames
  | tail hrun hstep ih => exact (Reachable.sound hrun).knowsNames_step ih hstep

/-- In every session, what is shown of an item is one tree, and the listing of the item ends and is
the text of that tree. -/
theorem itemListing_eq_text (hs : s.Reachable) {item : ItemId}
    (hitem : item.index < s.unit.items.size) :
    (∃ shown, s.unit.ShowsItem item shown) ∧
      ∀ shown, s.unit.ShowsItem item shown → s.unit.itemListing item = .ok shown.text := by
  have hsound := hs.sound.unit
  have hholds := holdsItem_item hitem
  obtain ⟨hsignature, hbody⟩ := hsound.items item _ hholds
  have hlegible := hs.knowsNames.legibleItem hsound.exprsDescend hholds hsignature hbody
  obtain ⟨shown, hshown, hlisting⟩ :=
    (hsound.showable hsound.constantsLegible_standard).exists_itemListing_eq hsound.exprsDescend
      hsound.typesDescend hsound.findings_size hlegible trivial trivial
  refine ⟨⟨shown, hshown⟩, fun other hother => ?_⟩
  rw [hother.unique hshown]
  exact hlisting

/-- A listing with a constant form and with types, but with no type of the return. -/
def literalListing : String :=
  "FunctionItem(\n  name = \"f\",\n  type = FunctionTypeExpr(\n" ++
    "    return_type = FunctionTypeExpr(\n      return_type = Int32Expr(),\n    ),\n" ++
    "    type = Type(),\n  ),\n  body = ReturnExpr(\n" ++
    "    value = IntLiteralExpr(value = 1, type = Int32()),\n  ),\n)\n"

/-- After a check that finds a mismatch, the signature is shown in its constant form. -/
theorem itemListing_eq_text_literalUnit : ∃ answer checkers shown,
    (literalUnit ⟨1⟩ 1).check ⟨0⟩ Prelude.initial = .ok answer ∧
    Reachable ⟨answer.unit, [Prelude.initial], checkers⟩ ∧
    answer.unit.ShowsItem ⟨0⟩ shown ∧ shown.text = literalListing := by
  have hresult : ((literalUnit ⟨1⟩ 1).check ⟨0⟩ Prelude.initial).toOption.bind
      (fun answer => (answer.unit.itemListing ⟨0⟩).toOption.map fun text =>
        (text, decide (0 < answer.unit.items.size))) = some (literalListing, true) := by
    decide +kernel
  obtain ⟨answer, hanswer, hresult⟩ := Option.bind_eq_some_iff.mp hresult
  obtain ⟨text, htext, heq⟩ := Option.map_eq_some_iff.mp hresult
  simp only [Prod.mk.injEq, decide_eq_true_eq] at heq
  obtain ⟨rfl, hitem⟩ := heq
  have hcheck := toOption_eq_some_iff.mp hanswer
  have hunit := literalUnit_reachable (by decide : (⟨1⟩ : Name).index < 2) 1
  obtain ⟨checkers, hrun⟩ :=
    hunit.sound.check_run (List.mem_singleton_self _) (by decide +kernel) hcheck
  have hs : Reachable ⟨answer.unit, [Prelude.initial], checkers⟩ := hunit.trans hrun
  obtain ⟨⟨shown, hshown⟩, hlisting⟩ := itemListing_eq_text hs hitem
  refine ⟨answer, checkers, shown, hcheck, hs, hshown, ?_⟩
  exact Except.ok.inj ((hlisting shown hshown).symm.trans (toOption_eq_some_iff.mp htext))

end Session

end FrontEnd
