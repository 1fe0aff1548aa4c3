import FrontEnd.Proofs.BindingFrame
import FrontEnd.Proofs.Phases
import FrontEnd.Proofs.Session

/-! # Items of sessions

The preludes of a session fit its unit, and every item has a place for a declaration. -/

namespace FrontEnd

variable {hash : Hasher}

namespace CompilationUnit

variable {u v : CompilationUnit hash}

/-! ## Places of declarations -/

/-- Every item has a place for the declaration that it is bound to. -/
def HasPlaces (u : CompilationUnit hash) : Prop := u.itemDeclarations.size = u.items.size

theorem HasPlaces.queried (h : u.HasPlaces) (hqueried : u.Queried v) : v.HasPlaces := by
  rw [HasPlaces, hqueried.itemDeclarations_eq, hqueried.items_eq]
  exact h

theorem HasPlaces.addItem (h : u.HasPlaces) (item : FunctionItem) :
    (u.addItem item).2.HasPlaces := by
  simp only [HasPlaces, CompilationUnit.addItem, Array.size_push]
  exact congrArg (· + 1) h

theorem HasPlaces.recordItemDeclaration (h : u.HasPlaces) {item : ItemId} {decl : DeclId}
    (hok : u.recordItemDeclaration item decl = .ok v) : v.HasPlaces := by
  obtain ⟨-, -, rfl⟩ := recordItemDeclaration_eq_ok_iff.mp hok
  simp only [HasPlaces, Array.size_setIfInBounds]
  exact h

theorem HasPlaces.declareItem (h : u.HasPlaces) {item : ItemId}
    (hok : u.declareItem item = .ok v) : v.HasPlaces := by
  obtain ⟨-, rfl⟩ := declareItem_eq_ok_iff.mp hok
  simp only [HasPlaces, Array.size_setIfInBounds]
  exact h

theorem HasPlaces.resolve (h : u.HasPlaces) {item : ItemId} {table : Bindings hash}
    {resolution : Resolution hash} (hok : u.resolve item table = .ok resolution) :
    resolution.unit.HasPlaces := by
  have hresolved := resolve_resolved hok
  have hitems : resolution.unit.items = u.items := (congrArg items hresolved.stripped_eq :)
  rw [HasPlaces, hresolved.itemDeclarations_eq, hitems]
  exact h

/-- An item that is parsed gets a place, and a syntax error adds none. -/
theorem HasPlaces.parse (h : u.HasPlaces) (tokens : List Token) :
    (u.parse tokens).2.HasPlaces := by
  unfold CompilationUnit.parse
  cases TokenStream.ofTokens tokens with
  | error e => exact h
  | ok start =>
      dsimp only
      unfold parseStream
      cases HeaderSyntax.read start with
      | error e => exact h
      | ok readHeader =>
          have hsignature := h.queried (addSignature_spec u readHeader.1).1.toQueried
          dsimp only
          cases StatementSyntax.read readHeader.2 with
          | error e => exact hsignature
          | ok readStatement =>
              have hbuilt := hsignature.queried (addStatement_spec _ readStatement.1).1.toQueried
              dsimp only
              cases readClose readStatement.2 with
              | error e => exact hbuilt
              | ok done => exact hbuilt.addItem _

end CompilationUnit

namespace Session

variable {s t : Session hash} {prelude : Prelude}

theorem Sound.fitsIn (h : s.Sound) (hprelude : prelude ∈ s.preludes ∨ prelude = .empty) :
    prelude.FitsIn s.unit :=
  hprelude.symm.imp_right (h.preludes prelude)

theorem Sound.hasPlaces_step (h : s.Sound) (hplaces : s.unit.HasPlaces) (hstep : Step s t) :
    t.unit.HasPlaces := by
  cases hstep with
  | intern | addSource | tokenizeSource | addFunctionType | addDeclaration | prelude | checker =>
      exact hplaces
  | parse tokens _ => exact hplaces.parse tokens
  | addExpr expr pos _ => exact hplaces.queried (CompilationUnit.queried_addExpr s.unit expr pos)
  | addItem item _ _ _ => exact hplaces.addItem item
  | recordItemDeclaration _ _ _ _ _ hok => exact hplaces.recordItemDeclaration hok
  | recordReferent _ _ _ _ _ hok =>
      obtain ⟨-, -, rfl⟩ := CompilationUnit.record_eq_ok_iff.mp hok
      exact hplaces
  | declareItem _ _ _ hok => exact hplaces.declareItem hok
  | resolve _ _ _ _ _ hok => exact hplaces.resolve hok
  | constantForm c _ _ hc hid hok =>
      exact hplaces.queried (Checker.constantForm_queried h.unit (h.checkers c hc).1 hid hok).2
  | denotedType _ _ _ hid hok =>
      exact hplaces.queried (Checker.denotedType_queried h.unit hid hok).2
  | typeOf c _ _ hc hid hok =>
      obtain ⟨hfits, hout⟩ := h.checkers c hc
      exact hplaces.queried (Checker.typeOf_queried h.unit hfits hout hid hok).2
  | check c _ _ _ hc hitem hok =>
      obtain ⟨hfits, hout⟩ := h.checkers c hc
      exact hplaces.queried (Checker.check_queried h.unit hfits hout hitem hok).2.1

theorem Reachable.hasPlaces (h : s.Reachable) : s.unit.HasPlaces := by
  induction h with
  | refl => rfl
  | tail hrun hstep ih => exact (Reachable.sound hrun).hasPlaces_step ih hstep

end Session

end FrontEnd
