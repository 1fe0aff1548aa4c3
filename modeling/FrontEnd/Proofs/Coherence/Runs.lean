import FrontEnd.Proofs.Coherence.Items
import FrontEnd.Proofs.Coherence.Questions
import FrontEnd.Proofs.Typing.ParsedItems

/-! # Runs of operations

Whatever is done with a unit, it grows and stays coherent. Other than the steps of sessions, the
operations may record anything that is there as a finding, be it true or not. -/

namespace FrontEnd.Session

variable {hash : Hasher}

open CompilationUnit

/-- What may be done with a unit and with the preludes and checkers that were made for it. An
operation that ends in an error leaves a unit like any other; one that breaches what it asks for
leaves none. -/
inductive Operation : Session hash → Session hash → Prop where
  | intern (s : Session hash) (text : String) (hroom : s.unit.names.size + 1 < 2 ^ 32) :
      Operation s { s with unit := (s.unit.intern text).2 }
  | addSource (s : Session hash) (path : String) (bytes : List UInt8)
      (hroom : s.unit.names.size + 1 < 2 ^ 32) :
      Operation s { s with unit := (s.unit.addSource path bytes).2 }
  | tokenizeSource (s : Session hash) (config : LayoutConfig) (source : SourceId)
      (hroom : s.unit.names.size +
        (Reading.ofSource config (s.unit.source source).content.bytes).lexemes.length < 2 ^ 32) :
      Operation s { s with unit := (s.unit.tokenizeSource config source).2 }
  | parse (s : Session hash) (tokens : List Token)
      (htokens : ∀ token ∈ tokens, ∀ name ∈ token.name?, s.unit.Knows name) :
      Operation s { s with unit := (s.unit.parse tokens).2 }
  | addExpr (s : Session hash) (expr : Expr) (pos : Position) (hexpr : s.unit.ExprFits expr) :
      Operation s { s with unit := (s.unit.addExpr expr pos).2 }
  | addFunctionType (s : Session hash) (result : TypeId) (hresult : s.unit.HasType result) :
      Operation s { s with unit := (s.unit.addFunctionType result).2 }
  | addItem (s : Session hash) (item : FunctionItem) (hitem : s.unit.ItemFits item) :
      Operation s { s with unit := (s.unit.addItem item).2 }
  | addDeclaration (s : Session hash) (decl : Declaration) (hdecl : s.unit.DeclFits decl) :
      Operation s { s with unit := (s.unit.addDeclaration decl).2 }
  | recordItemDeclaration (s : Session hash) (item : ItemId) (decl : DeclId)
      (u : CompilationUnit hash) (hdecl : decl.index < s.unit.declarations.size)
      (hok : s.unit.recordItemDeclaration item decl = .ok u) : Operation s { s with unit := u }
  | record (s : Session hash) (slot : Slot) (id : ExprId) (value : slot.Value)
      (u : CompilationUnit hash) (hvalue : s.unit.HasValue slot value)
      (hok : s.unit.record slot id value = .ok u) :
      Operation s { s with unit := u }
  | declareItem (s : Session hash) (item : ItemId) (u : CompilationUnit hash)
      (hitem : item.index < s.unit.items.size) (hok : s.unit.declareItem item = .ok u) :
      Operation s { s with unit := u }
  | resolve (s : Session hash) (item : ItemId) (table : Bindings hash)
      (resolution : Resolution hash) (hitem : item.index < s.unit.items.size)
      (htable : table.InRange s.unit) (hok : s.unit.resolve item table = .ok resolution) :
      Operation s { s with unit := resolution.unit }
  | bind (s : Session hash) (item : ItemId) (prelude : Prelude) (answer : Except BindingError Unit)
      (u : CompilationUnit hash) (hitem : item.index < s.unit.items.size)
      (hprelude : prelude = .empty ∨ prelude ∈ s.preludes)
      (hok : s.unit.bind item prelude = .ok (answer, u)) : Operation s { s with unit := u }
  | prelude (s : Session hash) (hroom : s.unit.names.size + 1 < 2 ^ 32) :
      Operation s
        ⟨(Prelude.standard s.unit).2, (Prelude.standard s.unit).1 :: s.preludes, s.checkers⟩
  | checker (s : Session hash) (prelude : Prelude) (c : Checker hash)
      (hprelude : prelude = .empty ∨ prelude ∈ s.preludes)
      (hok : Checker.ofPrelude s.unit prelude = .ok c) :
      Operation s { s with checkers := c :: s.checkers }
  | constantForm (s : Session hash) (c : Checker hash) (id : ExprId)
      (answer : Answer hash (Option ExprId)) (hc : c ∈ s.checkers)
      (hid : id.index < s.unit.exprs.size) (hok : c.constantForm s.unit id = .ok answer) :
      Operation s { s with unit := answer.unit }
  | denotedType (s : Session hash) (id : ExprId) (type : Option TypeId) (u : CompilationUnit hash)
      (hid : id.index < s.unit.exprs.size)
      (hok : Checker.denotedType s.unit id = .ok (type, u)) : Operation s { s with unit := u }
  | typeOf (s : Session hash) (c : Checker hash) (id : ExprId) (answer : Answer hash TypeId)
      (hc : c ∈ s.checkers) (hid : id.index < s.unit.exprs.size)
      (hok : c.typeOf s.unit id = .ok answer) : Operation s { s with unit := answer.unit }
  | checkWith (s : Session hash) (c d : Checker hash) (item : ItemId) (answer : Answer hash Unit)
      (hc : c ∈ s.checkers) (hitem : item.index < s.unit.items.size)
      (hok : c.check s.unit item = .ok (answer, d)) :
      Operation s ⟨answer.unit, s.preludes, d :: s.checkers⟩
  | check (s : Session hash) (item : ItemId) (prelude : Prelude) (answer : Answer hash Unit)
      (hitem : item.index < s.unit.items.size)
      (hprelude : prelude = .empty ∨ prelude ∈ s.preludes)
      (hok : s.unit.check item prelude = .ok answer) : Operation s { s with unit := answer.unit }

def Operations : Session hash → Session hash → Prop := Relation.ReflTransGen Operation

/-! ## Coherent sessions -/

structure Coherent (s : Session hash) : Prop where
  unit : s.unit.Coherent
  preludes : ∀ prelude ∈ s.preludes, prelude.IsStandard s.unit
  checkers : ∀ c ∈ s.checkers, c.InRange s.unit

theorem new_coherent : (new hash).Coherent where
  unit := CompilationUnit.new_coherent
  preludes _ h := by cases h
  checkers _ h := by cases h

variable {s t : Session hash} {u : CompilationUnit hash}

/-- Preludes and checkers fit the unit in which they were made, and all later ones. -/
theorem Coherent.advance (h : s.Coherent) (hadvances : s.unit.Advances u) :
    ({ s with unit := u } : Session hash).Coherent where
  unit := hadvances.coherent
  preludes prelude hprelude := (h.preludes prelude hprelude).grow hadvances.grown
  checkers c hc := (h.checkers c hc).grow hadvances.grown

theorem Coherent.isStandard (h : s.Coherent) {prelude : Prelude}
    (hprelude : prelude = .empty ∨ prelude ∈ s.preludes) :
    prelude = .empty ∨ prelude.IsStandard s.unit :=
  hprelude.imp_right (h.preludes prelude)

/-- An operation leaves a coherent session, whose unit keeps all that it held. -/
theorem Coherent.operation (h : s.Coherent) (hoperation : Operation s t) :
    t.Coherent ∧ s.unit.Grown t.unit := by
  -- most operations change the unit alone
  have hunit : ∀ {u : CompilationUnit hash}, s.unit.Advances u →
      ({ s with unit := u } : Session hash).Coherent ∧ s.unit.Grown u :=
    fun hadvances => ⟨h.advance hadvances, hadvances.grown⟩
  cases hoperation with
  | intern text hroom => exact hunit (h.unit.intern text hroom).1
  | addSource path bytes hroom => exact hunit (h.unit.addSource path bytes hroom)
  | tokenizeSource config source hroom => exact hunit (h.unit.tokenizeSource config hroom)
  | parse tokens htokens => exact hunit (h.unit.parse htokens)
  | addExpr expr pos hexpr => exact hunit (h.unit.addExpr hexpr pos)
  | addFunctionType result hresult => exact hunit (h.unit.addFunctionType hresult)
  | addItem item hitem => exact hunit (h.unit.addItem hitem)
  | addDeclaration decl hdecl => exact hunit (h.unit.addDeclaration hdecl)
  | recordItemDeclaration item decl u hdecl hok =>
      exact hunit (h.unit.recordItemDeclaration hdecl hok)
  | record slot id value u hvalue hok => exact hunit (h.unit.record hok hvalue)
  | declareItem item u hitem hok => exact hunit (h.unit.declareItem hok)
  | resolve item table resolution hitem htable hok =>
      exact hunit (h.unit.resolve htable hok)
  | bind item prelude answer u hitem hprelude hok =>
      exact hunit (h.unit.bind (h.isStandard hprelude) hok)
  | prelude hroom =>
      have hadvances := h.unit.prelude hroom
      have hafter := h.advance hadvances
      exact ⟨⟨hafter.unit, List.forall_mem_cons.mpr
        ⟨Prelude.standard_isStandard h.unit.names hroom, hafter.preludes⟩, hafter.checkers⟩,
        hadvances.grown⟩
  | checker prelude c hprelude hok =>
      have hc := Checker.ofPrelude_inRange h.unit (h.isStandard hprelude) hok
      exact ⟨⟨h.unit, h.preludes, List.forall_mem_cons.mpr ⟨hc, h.checkers⟩⟩, .refl _⟩
  | constantForm c id answer hc hid hok =>
      exact hunit (Checker.constantForm_advances h.unit (h.checkers c hc) hid hok).unit
  | denotedType id type u hid hok => exact hunit (Checker.denotedType_advances h.unit hid hok).1
  | typeOf c id answer hc hid hok =>
      exact hunit (Checker.typeOf_advances h.unit (h.checkers c hc) hid hok).unit
  | checkWith c d item answer hc hitem hok =>
      obtain ⟨hadvances, hd⟩ := Checker.check_advances h.unit (h.checkers c hc) hitem hok
      have hafter := h.advance hadvances
      exact ⟨⟨hafter.unit, hafter.preludes, List.forall_mem_cons.mpr ⟨hd, hafter.checkers⟩⟩,
        hadvances.grown⟩
  | check item prelude answer hitem hprelude hok =>
      exact hunit (h.unit.check (h.isStandard hprelude) hitem hok)

theorem Coherent.operations (h : s.Coherent) (hrun : Operations s t) :
    t.Coherent ∧ s.unit.Grown t.unit := by
  induction hrun with
  | refl => exact ⟨h, .refl _⟩
  | tail _ hoperation ih =>
      obtain ⟨hcoherent, hgrown⟩ := ih.1.operation hoperation
      exact ⟨hcoherent, ih.2.trans hgrown⟩

/-- What is found nowhere at the end of a run was found nowhere before: all its steps are ones that
leave this part of the findings. -/
theorem Operations.lift_of_none {α : Type} {step : Session hash → Session hash → Prop}
    (part : Findings → Option α)
    (hkept : ∀ {old new : Findings}, old.Kept new → ∀ found, part old = some found →
      part new = some found)
    (hstep : ∀ {s t : Session hash}, Operation s t →
      (∀ id, part (t.unit.findingsOf id) = part (s.unit.findingsOf id)) → step s t)
    (hs : s.Coherent) (hrun : Operations s t)
    (hnone : ∀ id, part (t.unit.findingsOf id) = none) : Relation.ReflTransGen step s t := by
  induction hrun with
  | refl => exact .refl
  | @tail middle t hrun hoperation ih =>
      have hgrown := ((hs.operations hrun).1.operation hoperation).2
      have hbefore : ∀ id, part (middle.unit.findingsOf id) = none := by
        intro id
        cases hfound : part (middle.unit.findingsOf id) with
        | none => rfl
        | some found => cases (hkept (hgrown.findings id) found hfound).symm.trans (hnone id)
      exact (ih hbefore).tail (hstep hoperation fun id => (hnone id).trans (hbefore id).symm)

theorem part_eq_none_of_all {α : Type} (part : Findings → Option α) (hempty : part {} = none)
    (h : u.findings.toList.all (fun found => (part found).isNone) = true) (id : ExprId) :
    part (u.findingsOf id) = none := by
  rw [findingsOf, Array.getD_eq_getD_getElem?]
  cases hfound : u.findings[id.index]? with
  | none => exact hempty
  | some found =>
      have hmem := Array.mem_toList_iff.mpr (Array.mem_of_getElem? hfound)
      exact Option.isNone_iff_eq_none.mp (List.all_eq_true.mp h found hmem)

/-- From the start on, all that a unit holds stays, and all that is in it fits. -/
theorem grown_and_coherent (hs : Operations (new hash) s) (ht : Operations s t) :
    s.unit.Grown t.unit ∧ t.unit.Coherent := by
  obtain ⟨hcoherent, hgrown⟩ := (new_coherent.operations hs).1.operations ht
  exact ⟨hgrown, hcoherent.unit⟩

theorem twoNames_operations : Operations (new .constant) ⟨twoNames, [Prelude.initial], []⟩ :=
  (Relation.ReflTransGen.single (.prelude (new .constant) (by decide))).tail
    (.intern _ "f" (by decide +kernel))

theorem literalUnit_operations :
    Operations (new .constant) ⟨literalUnit ⟨1⟩ 1, [Prelude.initial], []⟩ :=
  twoNames_operations.tail (.parse _ (literalFunction ⟨1⟩ 1) (by decide +kernel))

/-- A check finds a mismatch and then a binding an unbound name. Both are operations like others. -/
theorem grown_and_coherent_literalUnit : ∃ answer bound,
    (literalUnit ⟨1⟩ 1).check ⟨0⟩ Prelude.initial = .ok answer ∧
      answer.value = .error (.mismatch ⟨4⟩ BaseType.int32.typeId .start) ∧
      answer.unit.bind ⟨0⟩ .empty = .ok (.error (.unbound ⟨0⟩ .start), bound) ∧
      Operations (new .constant) ⟨literalUnit ⟨1⟩ 1, [Prelude.initial], []⟩ ∧
      Operations ⟨literalUnit ⟨1⟩ 1, [Prelude.initial], []⟩
        ⟨bound, [Prelude.initial], []⟩ ∧
      (literalUnit ⟨1⟩ 1).Grown bound ∧ bound.Coherent := by
  have hresult : ((literalUnit ⟨1⟩ 1).check ⟨0⟩ Prelude.initial).toOption.bind
      (fun answer => (answer.unit.bind ⟨0⟩ .empty).toOption.map fun bound =>
        (answer.value, decide (0 < answer.unit.items.size), bound.1)) =
      some (.error (.mismatch ⟨4⟩ BaseType.int32.typeId .start), true,
        .error (.unbound ⟨0⟩ .start)) := by
    decide +kernel
  obtain ⟨answer, hanswer, hresult⟩ := Option.bind_eq_some_iff.mp hresult
  obtain ⟨⟨_, bound⟩, hbound, heq⟩ := Option.map_eq_some_iff.mp hresult
  simp only [Prod.mk.injEq, decide_eq_true_eq] at heq
  obtain ⟨hvalue, hitem, rfl⟩ := heq
  have hcheck := toOption_eq_some_iff.mp hanswer
  have hbind := toOption_eq_some_iff.mp hbound
  have hs := literalUnit_operations
  have ht : Operations ⟨literalUnit ⟨1⟩ 1, [Prelude.initial], []⟩
      ⟨bound, [Prelude.initial], []⟩ :=
    (Relation.ReflTransGen.single (.check _ ⟨0⟩ _ answer (by decide +kernel)
      (.inr (List.mem_singleton_self _)) hcheck)).tail
      (.bind _ ⟨0⟩ .empty _ bound hitem (.inl rfl) hbind)
  obtain ⟨hgrown, hcoherent⟩ := grown_and_coherent hs ht
  exact ⟨answer, bound, hcheck, hvalue, hbind, hs, ht, hgrown, hcoherent⟩

end FrontEnd.Session
