import FrontEnd.CompilationUnit.Listing
import FrontEnd.Proofs.Grammar.Item
import FrontEnd.Proofs.Session

/-! # Items are listed

An expression whose name is known has a listing, in whatever form it is shown: a constant form is as
deep as its expression, so the chain of shown forms ends. -/

namespace FrontEnd

theorem Interner.lookup_of_lt {hash : String → UInt32} {names : Interner hash} {name : Name}
    (h : name.index < names.size) : ∃ text, names.lookup name = .ok text := by
  rw [← Interner.length_toList] at h
  refine ⟨names.toList[name.index], ?_⟩
  rw [Interner.lookup, Interner.text?_eq_getElem?, List.getElem?_eq_getElem h]

/-- The name in a value, if it is a type. -/
def ValueSyntax.name? : ValueSyntax → Option Name
  | literal _ _ => none
  | type written => some written.base

namespace CompilationUnit

variable {hash : Hasher} {constants : Constants} {u v : CompilationUnit hash} {id : ExprId}
  {depth : Nat}

theorem Knows.grow (hgrown : u.Grown v) {name : Name} (h : u.Knows name) : v.Knows name := by
  have hle := hgrown.names.length_le
  rw [Interner.length_toList, Interner.length_toList] at hle
  exact Nat.lt_of_lt_of_le h hle

/-! ## Legible expressions -/

/-- An expression is `depth` expressions around one that has no name or a known one. -/
inductive Legible (u : CompilationUnit hash) : (depth : Nat) → ExprId → Prop where
  | leaf {id expr pos} : u.Holds id expr pos → expr.child? = none →
      (∀ name, expr = .name name → u.Knows name) → Legible u 0 id
  | around {id expr pos inner depth} : u.Holds id expr pos → expr.child? = some inner →
      Legible u depth inner → Legible u (depth + 1) id

theorem Legible.grow (hgrown : u.Grown v) (h : u.Legible depth id) : v.Legible depth id := by
  induction h with
  | leaf hid hleaf hname =>
      exact .leaf (hgrown.holds hid) hleaf fun name h => (hname name h).grow hgrown
  | around hid hchild _ ih => exact .around (hgrown.holds hid) hchild ih

theorem Legible.lt (h : u.Legible depth id) : id.index < u.exprs.size := by
  cases h with
  | leaf hid _ _ => exact hid.lt
  | around hid _ _ => exact hid.lt

theorem Legible.depth_le (hdown : LeadsDown u.child?) (h : u.Legible depth id) :
    depth ≤ id.index := by
  induction h with
  | leaf _ _ _ => exact Nat.zero_le _
  | around hid hchild _ ih =>
      have hless := hdown _ _ ((child?_of_holds hid).trans hchild)
      exact Nat.succ_le_of_lt (Nat.lt_of_le_of_lt ih hless)

theorem Legible.knows (h : u.Legible depth id) {name : Name} {pos : Position}
    (hname : u.Holds id (.name name) pos) : u.Knows name := by
  cases h with
  | leaf hid _ hknows => exact hknows name (hid.unique hname).1
  | around hid hchild _ =>
      rw [(hid.unique hname).1] at hchild
      cases hchild

theorem Legible.of_child (h : u.Legible depth id) {child : ExprId}
    (hchild : u.child? id = some child) : ∃ inner, u.Legible inner child ∧ depth = inner + 1 := by
  cases h with
  | leaf hid hleaf _ =>
      rw [child?_of_holds hid, hleaf] at hchild
      cases hchild
  | @around _ _ _ _ inner hid hinner hlegible =>
      rw [child?_of_holds hid, hinner] at hchild
      cases hchild
      exact ⟨inner, hlegible, rfl⟩

/-- A trail goes up by one expression at a time. -/
theorem Legible.of_trail {leaf top : ExprId} {outer : List ExprId} (h : u.Legible depth top)
    (htrail : Trail u.child? leaf outer top) :
    ∃ inner, u.Legible inner leaf ∧ depth = inner + outer.length := by
  induction htrail with
  | stay id => exact ⟨depth, h, rfl⟩
  | out hnext _ ih =>
      obtain ⟨outside, hlegible, rfl⟩ := ih h
      obtain ⟨inner, hinner, rfl⟩ := hlegible.of_child hnext
      refine ⟨inner, hinner, ?_⟩
      rw [List.length_cons]
      omega

/-- Constants are base types, which stand for themselves. -/
def ConstantsLegible (constants : Constants) (u : CompilationUnit hash) : Prop :=
  ∀ name binding, constants name = some binding → u.Legible 0 binding.value

theorem ConstantsLegible.grow (h : u.ConstantsLegible constants) (hgrown : u.Grown v) :
    v.ConstantsLegible constants :=
  fun name binding hname => (h name binding hname).grow hgrown

/-- A constant form is as deep as its expression. -/
theorem Form.legible (hconstants : u.ConstantsLegible constants) {form : ExprId}
    (hform : u.Form constants id (some form)) (h : u.Legible depth id) : u.Legible depth form := by
  generalize hsome : some form = form? at hform
  induction hform generalizing depth form with
  | literal hid =>
      cases hsome
      exact h
  | baseType hid =>
      cases hsome
      exact h
  | name hid hbound =>
      cases hsome
      cases h with
      | leaf _ _ _ => exact hconstants _ _ hbound
      | around hother hchild _ =>
          cases (hid.unique hother).1
          cases hchild
  | return_ hid => cases hsome
  | function hid _ hmade ih =>
      cases hsome
      cases h with
      | leaf hother hleaf _ =>
          cases (hid.unique hother).1
          cases hleaf
      | around hother hchild hinner =>
          cases (hid.unique hother).1
          cases hchild
          exact .around hmade rfl (ih hinner rfl)
  | formless hid _ _ => cases hsome

theorem constantsLegible_of_holds {names : Interner hash.text}
    (h : u.Holds BaseType.int32.exprId (.baseType .int32) .nowhere) :
    u.ConstantsLegible (standardConstants names) := by
  intro name binding hbound
  obtain ⟨-, rfl⟩ := standardConstants_eq_some_iff.mp hbound
  exact .leaf h rfl nofun

theorem Sound.constantsLegible_standard {names : Interner hash.text}
    (h : u.Sound (standardConstants names)) : u.ConstantsLegible (standardConstants names) :=
  constantsLegible_of_holds (h.baseExprs .int32)

/-! ## Listings -/

theorem Sound.shownForm_legible (h : u.Sound constants)
    (hconstants : u.ConstantsLegible constants) (hid : u.Legible depth id) :
    u.Legible depth (u.shownForm id) := by
  unfold shownForm
  split
  · rename_i form hform
    exact (h.forms id _ hform).legible hconstants hid
  · exact hid

/-- A type that was found is there, so it is listed. -/
theorem Sound.shownTypeListing?_eq (h : u.Sound constants) (id : ExprId) :
    u.shownTypeListing? id = .ok ((u.shownType? id).map u.typeListing) := by
  unfold shownTypeListing?
  cases htype : u.shownType? id with
  | none => rfl
  | some type =>
      have hlt : type.index < u.types.size := by
        rcases Option.or_eq_some_iff.mp htype with hshown | ⟨-, hown⟩
        · exact Checker.typed_lt h (h.typed _ _ hshown)
        · exact Checker.typed_lt h (h.typed _ _ hown)
      exact checkIndex_bind_of_lt hlt

/-- A legible expression is shown as a leaf, or as a node around a legible one. -/
theorem Sound.shownNode_legible (h : u.Sound constants)
    (hconstants : u.ConstantsLegible constants) (hid : u.Legible depth id) (level : Nat) :
    (∃ text, u.shownNode level id = .ok (.leaf text)) ∨
      ∃ frame child inner, u.shownNode level id = .ok (.node frame child) ∧
        depth = inner + 1 ∧ u.Legible inner child := by
  have hshown := h.shownForm_legible hconstants hid
  have hlt := hshown.lt
  unfold shownNode
  rw [checkIndex_bind_of_lt hid.lt, checkIndex_bind_of_lt hlt, h.shownTypeListing?_eq]
  generalize u.shownForm id = form at hshown ⊢
  cases hshown with
  | @leaf _ expr pos hholds hleaf hname =>
      refine .inl ?_
      cases expr with
      | intLiteral value => exact ⟨_, by simp only [hholds.expr_eq]; rfl⟩
      | baseType kind => exact ⟨_, by simp only [hholds.expr_eq]; rfl⟩
      | name name =>
          obtain ⟨text, htext⟩ := Interner.lookup_of_lt (hname name rfl)
          exact ⟨_, by simp only [hholds.expr_eq, htext]; rfl⟩
      | return_ value => cases hleaf
      | functionType result => cases hleaf
  | @around _ expr pos child inner hholds hchild hinner =>
      refine .inr ?_
      cases expr with
      | return_ value =>
          cases hchild
          exact ⟨_, _, inner, by simp only [hholds.expr_eq]; rfl, rfl, hinner⟩
      | functionType result =>
          cases hchild
          exact ⟨_, _, inner, by simp only [hholds.expr_eq]; rfl, rfl, hinner⟩
      | intLiteral value => cases hchild
      | baseType kind => cases hchild
      | name name => cases hchild

/-- The chain of what is shown is as long as the expression is deep. -/
theorem Sound.shownChain_legible (h : u.Sound constants)
    (hconstants : u.ConstantsLegible constants) (hid : u.Legible depth id) {limit : Nat}
    (hlimit : depth < limit) (outer : List Listing.Frame) (level : Nat) :
    ∃ shown, u.shownChain outer limit level id = .ok shown := by
  induction limit generalizing depth id outer level with
  | zero => exact absurd hlimit (Nat.not_lt_zero _)
  | succ limit ih =>
      rw [shownChain]
      rcases h.shownNode_legible hconstants hid level with
        ⟨text, htext⟩ | ⟨frame, child, inner, hnode, rfl, hinner⟩
      · rw [htext]
        exact ⟨_, rfl⟩
      · rw [hnode]
        exact ih hinner (Nat.lt_of_succ_lt_succ hlimit) _ _

theorem Sound.exprListing_legible (h : u.Sound constants)
    (hconstants : u.ConstantsLegible constants) (hid : u.Legible depth id) (level : Nat) :
    ∃ text, u.exprListing level id = .ok text := by
  have hlimit := Nat.lt_of_le_of_lt (hid.depth_le h.exprsDescend) hid.lt
  obtain ⟨shown, hshown⟩ := h.shownChain_legible hconstants hid hlimit [] level
  exact ⟨_, by rw [exprListing, hshown]; rfl⟩

/-! ## Items -/

/-- An item with all of its names known. -/
structure LegibleItem (u : CompilationUnit hash) (item : ItemId) (function : FunctionItem) :
    Prop where
  item : u.HoldsItem item function
  name : u.Knows function.name
  signature : ∃ depth, u.Legible depth function.signature
  body : ∃ depth, u.Legible depth function.body

variable {item : ItemId} {function : FunctionItem}

theorem Sound.itemListing_legible (h : u.Sound constants)
    (hconstants : u.ConstantsLegible constants) (hitem : u.LegibleItem item function) :
    ∃ text, u.itemListing item = .ok text := by
  obtain ⟨name, hname⟩ := Interner.lookup_of_lt hitem.name
  obtain ⟨depth, hsignature⟩ := hitem.signature
  obtain ⟨depth', hbody⟩ := hitem.body
  obtain ⟨signature, hsignature⟩ := h.exprListing_legible hconstants hsignature 1
  obtain ⟨body, hbody⟩ := h.exprListing_legible hconstants hbody 1
  simp only [itemListing, checkIndex_of_lt hitem.item.lt, hitem.item.item_eq, hname, hsignature,
    hbody,     Bind.bind, Except.bind]
  exact ⟨_, rfl⟩

/-! ## What a source spells -/

variable {opens : List Position} {base : Name} {basePos : Position} {value : ValueSyntax}
  {header : HeaderSyntax} {statement : StatementSyntax}

theorem Spells.legible (h : u.Spells id opens base basePos) (hbase : u.Knows base) :
    u.Legible opens.length id := by
  induction h with
  | name hid =>
      refine .leaf hid rfl ?_
      rintro _ ⟨⟩
      exact hbase
  | function hid _ ih => exact .around hid rfl (ih hbase)

/-- All names that are spelled in an item are known. -/
structure KnowsItem (u : CompilationUnit hash) (header : HeaderSyntax)
    (statement : StatementSyntax) :
    Prop where
  name : u.Knows header.name
  result : u.Knows header.result.base
  value : ∀ name, statement.value.name? = some name → u.Knows name

theorem SpellsValue.legible (h : u.SpellsValue id value)
    (hvalue : ∀ name, value.name? = some name → u.Knows name) : ∃ depth, u.Legible depth id := by
  cases h with
  | literal hid => exact ⟨0, .leaf hid rfl nofun⟩
  | @type written hspells => exact ⟨_, Spells.legible hspells (hvalue written.base rfl)⟩

theorem SpellsItem.legible (h : u.SpellsItem function header statement)
    (hitem : u.HoldsItem item function) (hknows : u.KnowsItem header statement) :
    u.LegibleItem item function where
  item := hitem
  name := h.name ▸ hknows.name
  signature := ⟨_, h.signature.legible hknows.result⟩
  body := by
    obtain ⟨inner, hbody, hvalue⟩ := h.body
    obtain ⟨depth, hinner⟩ := hvalue.legible hknows.value
    exact ⟨depth + 1, .around hbody rfl hinner⟩

end CompilationUnit

end FrontEnd
