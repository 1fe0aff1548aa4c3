import FrontEnd.CompilationUnit.Types
import FrontEnd.Proofs.CompilationUnit.Growth

/-! # Types by their shape

A type is so many function types around a base type. Types are equal exactly if their shapes are,
and the shape is what a message spells. -/

namespace FrontEnd.CompilationUnit

variable {hash : Hasher}

/-- A type is `depth` function types around a base type. -/
inductive Shape (u : CompilationUnit hash) : TypeId → (depth : Nat) → BaseType → Prop where
  | base {id : TypeId} {kind : BaseType} : u.HoldsType id (.base kind) → Shape u id 0 kind
  | function {id result : TypeId} {depth : Nat} {kind : BaseType} :
      u.HoldsType id (.function result) → Shape u result depth kind → Shape u id (depth + 1) kind

/-- Function types come after their results. -/
def TypesDescend (u : CompilationUnit hash) : Prop :=
  ∀ id result, u.HoldsType id (.function result) → result.index < id.index

variable {u v : CompilationUnit hash} {a b : TypeId} {d e : Nat} {k l : BaseType}

theorem Shape.unique (h : u.Shape a d k) (h' : u.Shape a e l) : d = e ∧ k = l := by
  induction h generalizing e with
  | base hnode =>
      cases h' with
      | base hnode' =>
          cases hnode.unique hnode'
          exact ⟨rfl, rfl⟩
      | function hnode' _ => cases hnode.unique hnode'
  | function hnode _ ih =>
      cases h' with
      | base hnode' => cases hnode.unique hnode'
      | function hnode' hresult =>
          cases hnode.unique hnode'
          obtain ⟨rfl, rfl⟩ := ih hresult
          exact ⟨rfl, rfl⟩

theorem Shape.lt (h : u.Shape a d k) : a.index < u.types.size := by
  cases h with
  | base hnode => exact hnode.lt
  | function hnode _ => exact hnode.lt

theorem Grown.shape (hgrown : u.Grown v) (h : u.Shape a d k) : v.Shape a d k := by
  induction h with
  | base hnode => exact .base (hgrown.holdsType hnode)
  | function hnode _ ih => exact .function (hgrown.holdsType hnode) ih

theorem TypesDescend.exists_shape (h : u.TypesDescend) (ha : a.index < u.types.size) :
    ∃ d k, u.Shape a d k := by
  induction hindex : a.index using Nat.strong_induction_on generalizing a with
  | _ n ih =>
      have hnode := holdsType_typeNode ha
      cases hkind : u.typeNode a with
      | base kind =>
          rw [hkind] at hnode
          exact ⟨0, kind, .base hnode⟩
      | function result =>
          rw [hkind] at hnode
          have hlt := h a result hnode
          obtain ⟨d, k, hresult⟩ := ih result.index (hindex ▸ hlt) (by omega) rfl
          exact ⟨d + 1, k, .function hnode hresult⟩

/-- Types are equal exactly if their shapes are. -/
theorem TypesDescend.sameType_iff (h : u.TypesDescend) (ha : u.Shape a d k)
    (hb : u.Shape b e l) : u.sameType a b = true ↔ d = e ∧ k = l := by
  induction ha generalizing b e with
  | base hnode =>
      unfold sameType
      split
      · rename_i heq
        subst heq
        exact iff_of_true rfl (Shape.unique (.base hnode) hb)
      · cases hb with
        | base hnode' => simp [hnode.typeNode_eq, hnode'.typeNode_eq]
        | function hnode' _ => simp [hnode.typeNode_eq, hnode'.typeNode_eq]
  | @function a result depth kind hnode hresult ih =>
      unfold sameType
      split
      · rename_i heq
        subst heq
        exact iff_of_true rfl (Shape.unique (.function hnode hresult) hb)
      · cases hb with
        | base hnode' => simp [hnode.typeNode_eq, hnode'.typeNode_eq]
        | function hnode' hresult' =>
            simp [hnode.typeNode_eq, hnode'.typeNode_eq, h _ _ hnode, ih hresult']

theorem sameType_self (u : CompilationUnit hash) (a : TypeId) : u.sameType a a = true := by
  rw [sameType, if_pos rfl]

theorem compareTypes_of_lt (ha : a.index < u.types.size) (hb : b.index < u.types.size) :
    u.compareTypes a b = .ok (u.sameType a b) := by
  unfold compareTypes
  split
  · rfl
  · simp only [bind_pure_comp, checkIndex_of_lt ha, checkIndex_of_lt hb]
    rfl

theorem compareTypes_self (u : CompilationUnit hash) (a : TypeId) :
    u.compareTypes a a = .ok true := by
  rw [compareTypes, if_pos rfl, sameType_self]
  rfl

theorem compareTypes_bind_eq_ok_iff {β : Type} {next : Bool → Except Breach β} {answer : β} :
    (u.compareTypes a b >>= next) = .ok answer ↔
      (a ≠ b → a.index < u.types.size ∧ b.index < u.types.size) ∧
        next (u.sameType a b) = .ok answer := by
  unfold compareTypes
  by_cases hab : a = b
  · simp [hab, Bind.bind, Except.bind, Pure.pure, Except.pure]
  · simp only [hab, if_false, bind_assoc, checkIndex_bind_eq_ok_iff]
    simp [hab, and_assoc]

/-- Nothing but the types of a unit matters to whether two of them are equal. -/
theorem sameType_congr (h : v.types = u.types) (a b : TypeId) :
    v.sameType a b = u.sameType a b := by
  have hnode : ∀ id, v.typeNode id = u.typeNode id := fun id => by rw [typeNode, h, typeNode]
  fun_induction u.sameType a b with
  | case1 a => exact sameType_self v a
  | case2 a b hne x y ha hb => simp [sameType, hne, hnode, ha, hb]
  | case3 a b hne x y ha hb hlt ih =>
      rw [sameType]
      simp [hne, hnode, ha, hb, hlt, ih]
  | case4 a b hne x y ha hb hlt =>
      rw [sameType]
      simp [hne, hnode, ha, hb, hlt]
  | case5 a b hne hbase hfunction =>
      rw [sameType, if_neg hne, hnode, hnode]
      split
      · rename_i x y ha hb
        exact absurd hb (hbase x y ha)
      · rename_i x y ha hb
        exact absurd hb (hfunction x y ha)
      · rfl

theorem TypesDescend.typeShape_eq (h : u.TypesDescend) (ha : u.Shape a d k) (depth : Nat) :
    u.typeShape depth a = (depth + d, k) := by
  induction ha generalizing depth with
  | base hnode =>
      rw [typeShape, hnode.typeNode_eq]
      rfl
  | @function a result d kind hnode _ ih =>
      rw [typeShape, hnode.typeNode_eq]
      simp only [h _ _ hnode, if_true, ih, Prod.mk.injEq, and_true]
      omega

theorem TypesDescend.spellType_eq (h : u.TypesDescend) (ha : u.Shape a d k) :
    u.spellType a = String.join (List.replicate d "() -> ") ++ k.name := by
  simp only [spellType, h.typeShape_eq ha, Nat.zero_add]

end FrontEnd.CompilationUnit
