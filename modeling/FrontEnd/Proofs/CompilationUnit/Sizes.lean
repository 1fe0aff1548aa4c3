import FrontEnd.Prelude
import FrontEnd.Proofs.CompilationUnit.Operations

/-! # How much units grow

Nodes have 32-bit numbers, so there is room for so many of them. -/

namespace FrontEnd

variable {hash : Hasher}

namespace CompilationUnit

/-- At most so many expressions and types are added. -/
structure Adds (u v : CompilationUnit hash) (exprs types : Nat) : Prop where
  exprs_le : v.exprs.size ≤ u.exprs.size + exprs
  types_le : v.types.size ≤ u.types.size + types

variable {u v w : CompilationUnit hash} {exprs types exprs' types' : Nat} {id : ExprId}

theorem Adds.refl (u : CompilationUnit hash) : u.Adds u 0 0 := ⟨Nat.le_refl _, Nat.le_refl _⟩

theorem Adds.trans (huv : u.Adds v exprs types) (hvw : v.Adds w exprs' types') :
    u.Adds w (exprs + exprs') (types + types') where
  exprs_le := by have := huv.exprs_le; have := hvw.exprs_le; omega
  types_le := by have := huv.types_le; have := hvw.types_le; omega

theorem Adds.mono (h : u.Adds v exprs types) (hexprs : exprs ≤ exprs') (htypes : types ≤ types') :
    u.Adds v exprs' types' where
  exprs_le := Nat.le_trans h.exprs_le (Nat.add_le_add_left hexprs _)
  types_le := Nat.le_trans h.types_le (Nat.add_le_add_left htypes _)

theorem adds_addExpr (u : CompilationUnit hash) (expr : Expr) (pos : Position) :
    u.Adds (u.addExpr expr pos).2 1 0 := by
  constructor <;> simp [addExpr]

theorem adds_addFunctionType (u : CompilationUnit hash) (result : TypeId) :
    u.Adds (u.addFunctionType result).2 0 1 := by
  constructor <;> simp [addFunctionType]

/-- What is found about expressions is kept beside them. -/
theorem adds_modifyFindings (u : CompilationUnit hash) (id : ExprId) (f : Findings → Findings) :
    u.Adds (u.modifyFindings id f) 0 0 := ⟨Nat.le_refl _, Nat.le_refl _⟩

theorem adds_record {slot : Slot} {value : slot.Value} (h : u.record slot id value = .ok v) :
    u.Adds v 0 0 := by
  obtain ⟨-, -, rfl⟩ := record_eq_ok_iff.mp h
  exact adds_modifyFindings u id _

/-- Room for so many more expressions and as many types, and for so many declarations. -/
structure HasRoom (u : CompilationUnit hash) (nodes decls : Nat) : Prop where
  sources : u.sources.size ≤ 2 ^ 32
  items : u.items.size ≤ 2 ^ 32
  exprs : u.exprs.size + nodes ≤ 2 ^ 32
  types : u.types.size + nodes ≤ 2 ^ 32
  declarations : u.declarations.size + decls ≤ 2 ^ 32

theorem HasRoom.mono {nodes nodes' decls decls' : Nat} (h : u.HasRoom nodes decls)
    (hnodes : nodes' ≤ nodes) (hdecls : decls' ≤ decls) : u.HasRoom nodes' decls' where
  sources := h.sources
  items := h.items
  exprs := Nat.le_trans (Nat.add_le_add_left hnodes _) h.exprs
  types := Nat.le_trans (Nat.add_le_add_left hnodes _) h.types
  declarations := Nat.le_trans (Nat.add_le_add_left hdecls _) h.declarations

theorem HasRoom.queried {nodes rest decls : Nat} (h : u.HasRoom nodes decls)
    (hqueried : u.Queried v) (hadds : u.Adds v exprs types) (hexprs : exprs + rest ≤ nodes)
    (htypes : types + rest ≤ nodes) : v.HasRoom rest decls where
  sources := hqueried.sources_eq ▸ h.sources
  items := hqueried.items_eq ▸ h.items
  exprs := by have := hadds.exprs_le; have := h.exprs; omega
  types := by have := hadds.types_le; have := h.types; omega
  declarations := hqueried.declarations_eq ▸ h.declarations

theorem HasRoom.addItem {nodes decls : Nat} (h : u.HasRoom nodes decls)
    (hitems : u.items.size < 2 ^ 32) (item : FunctionItem) :
    (u.addItem item).2.HasRoom nodes decls where
  sources := h.sources
  items := by
    rw [CompilationUnit.addItem, Array.size_push]
    exact hitems
  exprs := h.exprs
  types := h.types
  declarations := h.declarations

/-- A prelude takes two declarations. -/
theorem HasRoom.prelude {nodes decls : Nat} (h : u.HasRoom nodes (decls + 2)) :
    (Prelude.standard u).2.HasRoom nodes decls where
  sources := h.sources
  items := h.items
  exprs := h.exprs
  types := h.types
  declarations := by
    have hroom := h.declarations
    have hsize : (Prelude.standard u).2.declarations.size = u.declarations.size + 2 := by
      simp [Prelude.standard, addDeclaration, CompilationUnit.intern]
    omega

end CompilationUnit

end FrontEnd
