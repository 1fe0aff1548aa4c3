import FrontEnd.CompilationUnit.Basic
import FrontEnd.Proofs.Interner

/-! # Compilation units only grow

Nodes keep their places, and what is recorded about a node stays. -/

namespace FrontEnd

variable {hash : Hasher}

/-! ## Arrays that are only appended to -/

/-- Whatever stands in the first array stands at the same place in the second. -/
def Keeps {α : Type} (a b : Array α) : Prop := ∀ (i : Nat) (x : α), a[i]? = some x → b[i]? = some x

namespace Keeps

variable {α : Type} {a b c : Array α}

theorem refl (a : Array α) : Keeps a a := fun _ _ h => h

theorem trans (hab : Keeps a b) (hbc : Keeps b c) : Keeps a c :=
  fun i x h => hbc i x (hab i x h)

theorem push (a : Array α) (x : α) : Keeps a (a.push x) := by
  intro i y h
  have hlt := (Array.getElem?_eq_some_iff.mp h).1
  rw [Array.getElem?_push_lt hlt, ← h, Array.getElem?_eq_getElem hlt]

theorem size_le (h : Keeps a b) : a.size ≤ b.size := by
  by_contra hlt
  have hb : b.size < a.size := by omega
  have hkept := h b.size a[b.size] (Array.getElem?_eq_getElem hb)
  have hbound := (Array.getElem?_eq_some_iff.mp hkept).1
  omega

end Keeps

/-! ## Findings -/

namespace Findings

/-- Everything found is still found. -/
structure Kept (old new : Findings) : Prop where
  referent : ∀ decl, old.referent = some decl → new.referent = some decl
  constantForm : ∀ form, old.constantForm = some form → new.constantForm = some form
  type : ∀ type, old.type = some type → new.type = some type
  denotedType : ∀ type, old.denotedType = some type → new.denotedType = some type

theorem Kept.refl (found : Findings) : found.Kept found :=
  ⟨fun _ h => h, fun _ h => h, fun _ h => h, fun _ h => h⟩

theorem Kept.trans {a b c : Findings} (hab : a.Kept b) (hbc : b.Kept c) : a.Kept c where
  referent decl h := hbc.referent decl (hab.referent decl h)
  constantForm form h := hbc.constantForm form (hab.constantForm form h)
  type type h := hbc.type type (hab.type type h)
  denotedType type h := hbc.denotedType type (hab.denotedType type h)

end Findings

namespace CompilationUnit

/-! ## Nodes at their places -/

def Holds (u : CompilationUnit hash) (id : ExprId) (expr : Expr) (pos : Position) : Prop :=
  u.exprs[id.index]? = some ⟨expr, pos⟩

def HoldsType (u : CompilationUnit hash) (id : TypeId) (node : TypeNode) : Prop :=
  u.types[id.index]? = some node

def HoldsItem (u : CompilationUnit hash) (id : ItemId) (item : FunctionItem) : Prop :=
  u.items[id.index]? = some item

def HoldsDecl (u : CompilationUnit hash) (id : DeclId) (decl : Declaration) : Prop :=
  u.declarations[id.index]? = some decl

variable {u v w : CompilationUnit hash}

theorem Holds.lt {id : ExprId} {expr : Expr} {pos : Position} (h : u.Holds id expr pos) :
    id.index < u.exprs.size :=
  (Array.getElem?_eq_some_iff.mp h).1

theorem Holds.expr_eq {id : ExprId} {expr : Expr} {pos : Position} (h : u.Holds id expr pos) :
    u.expr id = ⟨expr, pos⟩ := by
  rw [CompilationUnit.expr, Array.getD_eq_getD_getElem?, h]
  rfl

theorem Holds.unique {id : ExprId} {a b : Expr} {pos pos' : Position} (h : u.Holds id a pos)
    (h' : u.Holds id b pos') : a = b ∧ pos = pos' := by
  rw [Holds, h] at h'
  cases h'
  exact ⟨rfl, rfl⟩

theorem holds_expr {id : ExprId} (h : id.index < u.exprs.size) :
    u.Holds id (u.expr id).expr (u.expr id).pos := by
  rw [Holds, CompilationUnit.expr, Array.getD_eq_getD_getElem?, Array.getElem?_eq_getElem h]
  rfl

theorem HoldsType.lt {id : TypeId} {node : TypeNode} (h : u.HoldsType id node) :
    id.index < u.types.size :=
  (Array.getElem?_eq_some_iff.mp h).1

theorem HoldsType.typeNode_eq {id : TypeId} {node : TypeNode} (h : u.HoldsType id node) :
    u.typeNode id = node := by
  rw [CompilationUnit.typeNode, Array.getD_eq_getD_getElem?, h]
  rfl

theorem HoldsType.unique {id : TypeId} {a b : TypeNode} (h : u.HoldsType id a)
    (h' : u.HoldsType id b) : a = b := by
  rw [HoldsType, h] at h'
  exact Option.some.inj h'

theorem holdsType_typeNode {id : TypeId} (h : id.index < u.types.size) :
    u.HoldsType id (u.typeNode id) := by
  rw [HoldsType, CompilationUnit.typeNode, Array.getD_eq_getD_getElem?,
    Array.getElem?_eq_getElem h]
  rfl

theorem HoldsItem.lt {id : ItemId} {item : FunctionItem} (h : u.HoldsItem id item) :
    id.index < u.items.size :=
  (Array.getElem?_eq_some_iff.mp h).1

theorem HoldsItem.item_eq {id : ItemId} {item : FunctionItem} (h : u.HoldsItem id item) :
    u.item id = item := by
  rw [CompilationUnit.item, Array.getD_eq_getD_getElem?, h]
  rfl

theorem holdsItem_item {id : ItemId} (h : id.index < u.items.size) :
    u.HoldsItem id (u.item id) := by
  rw [HoldsItem, CompilationUnit.item, Array.getD_eq_getD_getElem?, Array.getElem?_eq_getElem h]
  rfl

theorem HoldsDecl.lt {id : DeclId} {decl : Declaration} (h : u.HoldsDecl id decl) :
    id.index < u.declarations.size :=
  (Array.getElem?_eq_some_iff.mp h).1

theorem HoldsDecl.decl_eq {id : DeclId} {decl : Declaration} (h : u.HoldsDecl id decl) :
    u.decl id = decl := by
  rw [CompilationUnit.decl, Array.getD_eq_getD_getElem?, h]
  rfl

/-! ## Growth -/

structure Grown (u v : CompilationUnit hash) : Prop where
  names : u.names.Extends v.names
  sources : Keeps u.sources v.sources
  items : Keeps u.items v.items
  exprs : Keeps u.exprs v.exprs
  types : Keeps u.types v.types
  declarations : Keeps u.declarations v.declarations
  itemDeclaration : ∀ id decl,
    u.itemDeclaration? id = some decl → v.itemDeclaration? id = some decl
  findings : ∀ id, (u.findingsOf id).Kept (v.findingsOf id)

theorem Grown.refl (u : CompilationUnit hash) : u.Grown u :=
  ⟨.refl _, .refl _, .refl _, .refl _, .refl _, .refl _, fun _ _ h => h, fun _ => .refl _⟩

theorem Grown.trans (huv : u.Grown v) (hvw : v.Grown w) : u.Grown w where
  names := huv.names.trans hvw.names
  sources := huv.sources.trans hvw.sources
  items := huv.items.trans hvw.items
  exprs := huv.exprs.trans hvw.exprs
  types := huv.types.trans hvw.types
  declarations := huv.declarations.trans hvw.declarations
  itemDeclaration id decl h := hvw.itemDeclaration id decl (huv.itemDeclaration id decl h)
  findings id := (huv.findings id).trans (hvw.findings id)

theorem Grown.holds (h : u.Grown v) {id : ExprId} {expr : Expr} {pos : Position}
    (hid : u.Holds id expr pos) : v.Holds id expr pos :=
  h.exprs _ _ hid

/-- An expression that was there before is the same one. -/
theorem Grown.holds_iff (h : u.Grown v) {id : ExprId} (hid : id.index < u.exprs.size)
    {expr : Expr} {pos : Position} : v.Holds id expr pos ↔ u.Holds id expr pos := by
  constructor
  · intro hafter
    have hbefore := holds_expr hid
    obtain ⟨hexpr, hpos⟩ := hafter.unique (h.holds hbefore)
    rwa [hexpr, hpos]
  · exact h.holds

theorem Grown.holdsType (h : u.Grown v) {id : TypeId} {node : TypeNode}
    (hid : u.HoldsType id node) : v.HoldsType id node :=
  h.types _ _ hid

theorem Grown.holdsItem (h : u.Grown v) {id : ItemId} {item : FunctionItem}
    (hid : u.HoldsItem id item) : v.HoldsItem id item :=
  h.items _ _ hid

theorem Grown.holdsDecl (h : u.Grown v) {id : DeclId} {decl : Declaration}
    (hid : u.HoldsDecl id decl) : v.HoldsDecl id decl :=
  h.declarations _ _ hid

/-! ## What a question may change -/

/-- Questions add expressions and types, and record what they find about expressions. All else
stays as it is. -/
structure Queried (u v : CompilationUnit hash) : Prop extends Grown u v where
  names_eq : v.names = u.names
  sources_eq : v.sources = u.sources
  items_eq : v.items = u.items
  itemDeclarations_eq : v.itemDeclarations = u.itemDeclarations
  declarations_eq : v.declarations = u.declarations
  referent_eq : ∀ id, (v.findingsOf id).referent = (u.findingsOf id).referent

theorem Queried.refl (u : CompilationUnit hash) : u.Queried u :=
  ⟨.refl u, rfl, rfl, rfl, rfl, rfl, fun _ => rfl⟩

theorem Queried.trans (huv : u.Queried v) (hvw : v.Queried w) : u.Queried w where
  toGrown := huv.toGrown.trans hvw.toGrown
  names_eq := hvw.names_eq.trans huv.names_eq
  sources_eq := hvw.sources_eq.trans huv.sources_eq
  items_eq := hvw.items_eq.trans huv.items_eq
  itemDeclarations_eq := hvw.itemDeclarations_eq.trans huv.itemDeclarations_eq
  declarations_eq := hvw.declarations_eq.trans huv.declarations_eq
  referent_eq id := (hvw.referent_eq id).trans (huv.referent_eq id)

/-- Questions asked outside of functions find no types of returns. -/
structure Asked (u v : CompilationUnit hash) : Prop extends Queried u v where
  returnType_eq : ∀ id value pos, u.Holds id (.return_ value) pos →
    (v.findingsOf id).type = (u.findingsOf id).type

theorem Asked.refl (u : CompilationUnit hash) : u.Asked u := ⟨.refl u, fun _ _ _ _ => rfl⟩

theorem Asked.trans (huv : u.Asked v) (hvw : v.Asked w) : u.Asked w where
  toQueried := huv.toQueried.trans hvw.toQueried
  returnType_eq id value pos hid :=
    (hvw.returnType_eq id value pos (huv.holds hid)).trans (huv.returnType_eq id value pos hid)

end CompilationUnit

end FrontEnd
