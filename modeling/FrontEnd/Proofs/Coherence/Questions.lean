import FrontEnd.Proofs.Coherence.Units

/-! # Questions in coherent units

Every question of a checker leaves a coherent unit, also if it is answered by an error, and answers
with expressions and types that are there. This asks nothing of what was found before, nor of the
constants in scope, than that they are there. -/

namespace FrontEnd

variable {hash : Hasher}

open CompilationUnit

/-- All that a checker refers to is there. -/
structure Checker.InRange (u : CompilationUnit hash) (c : Checker hash) : Prop where
  scopes : c.scopes.WellFormed
  constants : ∀ name binding, c.scopes.lookup name = some binding →
    binding.value.index < u.exprs.size ∧ binding.type.index < u.types.size
  returnType : ∀ type, c.returnType = some type → type.index < u.types.size

/-- A question was answered in a unit that has advanced, and the answer is of some kind. -/
structure Answer.Advances {α : Type} (u : CompilationUnit hash)
    (P : CompilationUnit hash → α → Prop) (answer : Answer hash α) : Prop where
  unit : u.Advances answer.unit
  value : ∀ value, answer.value = .ok value → P answer.unit value

variable {u v : CompilationUnit hash} {c d : Checker hash} {id : ExprId}

/-- Two questions one after the other. -/
theorem Answer.Advances.andThen {α β : Type} {P : CompilationUnit hash → α → Prop}
    {Q : CompilationUnit hash → β → Prop} {answer : Answer hash α} {last : Answer hash β}
    {next : α → CompilationUnit hash → Except Breach (Answer hash β)} (h : answer.Advances u P)
    (hok : answer.andThen next = .ok last)
    (hnext : ∀ value, P answer.unit value → next value answer.unit = .ok last →
      last.Advances answer.unit Q) : last.Advances u Q := by
  cases hvalue : answer.value with
  | ok value =>
      rw [Answer.andThen_of_ok hvalue] at hok
      have hlast := hnext value (h.value value hvalue) hok
      exact ⟨h.unit.trans hlast.unit, hlast.value⟩
  | error e =>
      rw [Answer.andThen_of_error hvalue] at hok
      cases hok
      exact ⟨h.unit, nofun⟩

theorem CompilationUnit.Coherent.failed (h : u.Coherent) {α : Type}
    {P : CompilationUnit hash → α → Prop} (e : TypingError) :
    (⟨.error e, u⟩ : Answer hash α).Advances u P :=
  ⟨h.stays, nofun⟩

namespace CompilationUnit

theorem Coherent.hasType (h : u.Coherent) (kind : BaseType) : u.HasType kind.typeId :=
  (h.baseTypes kind).lt

/-- What a descent passes, and where it stops, is there. -/
theorem Coherent.descend_lt (h : u.Coherent) (inner? : ExprId → Option ExprId)
    (hinner : ∀ id inner, inner? id = some inner → u.child? id = some inner)
    (hid : id.index < u.exprs.size) :
    (∀ passed ∈ (id.descend inner? []).1, passed.index < u.exprs.size) ∧
      (id.descend inner? []).2.index < u.exprs.size := by
  have hdown : LeadsDown inner? :=
    fun id inner hnext => h.exprsDescend id inner (hinner id inner hnext)
  obtain ⟨htrail, -⟩ := ExprId.descend_spec hdown (.stay id)
  exact ⟨fun passed hpassed =>
      Nat.lt_of_le_of_lt (htrail.index_of_mem hdown hpassed).2 hid,
    Nat.lt_of_le_of_lt (htrail.index_le hdown) hid⟩

theorem child?_of_functionResult? {result : ExprId} (h : u.functionResult? id = some result) :
    u.child? id = some result := by
  obtain ⟨pos, hid⟩ := functionResult?_eq_some_iff.mp h
  exact child?_of_holds hid

theorem child?_of_returnedValue? {value : ExprId} (h : u.returnedValue? id = some value) :
    u.child? id = some value := by
  obtain ⟨pos, hid⟩ := returnedValue?_eq_some_iff.mp h
  exact child?_of_holds hid

/-- A function type expression around one that is there fits. -/
theorem exprFits_functionType (hid : id.index < u.exprs.size) :
    u.ExprFits (.functionType id) where
  name _ hname := by cases hname
  child child hchild := by
    cases hchild
    exact hid

end CompilationUnit

namespace Checker

/-! ## Scopes -/

theorem InRange.grow (hgrown : u.Grown v) (h : c.InRange u) : c.InRange v where
  scopes := h.scopes
  constants name binding hname := by
    obtain ⟨hvalue, htype⟩ := h.constants name binding hname
    exact ⟨Nat.lt_of_lt_of_le hvalue hgrown.exprs.size_le,
      Nat.lt_of_lt_of_le htype hgrown.types.size_le⟩
  returnType type htype := Nat.lt_of_lt_of_le (h.returnType type htype) hgrown.types.size_le

/-- Inside of a function the constants are the same. -/
theorem InRange.inside (h : c.InRange u) {expected : TypeId} (hexpected : u.HasType expected) :
    InRange u ⟨c.scopes.push, some expected⟩ where
  scopes := h.scopes.push
  constants name binding hname := by
    rw [h.scopes.lookup_push] at hname
    exact h.constants name binding hname
  returnType type htype := by
    cases htype
    exact hexpected

/-- A checker that is made refers to the constants of its prelude. -/
theorem ofPrelude_inRange (h : u.Coherent) {prelude : Prelude}
    (hprelude : prelude = .empty ∨ prelude.IsStandard u)
    (hok : ofPrelude u prelude = .ok c) : c.InRange u := by
  rcases hprelude with rfl | ⟨name, binding, constant, hentries, -, -, hconstant⟩
  · obtain ⟨c', hc', hscopes, hout, hlookup⟩ := ofPrelude_empty u
    obtain rfl := Except.ok.inj (hc'.symm.trans hok)
    refine ⟨hscopes, fun name binding hname => ?_, fun type htype => ?_⟩
    · cases (hlookup name).symm.trans hname
    · cases hout.symm.trans htype
  · obtain ⟨c', hc', hscopes, hout, hlookup⟩ := ofPrelude_eq hentries hconstant
    obtain rfl := Except.ok.inj (hc'.symm.trans hok)
    refine ⟨hscopes, fun other binding hother => ?_, fun type htype => ?_⟩
    · rw [hlookup other] at hother
      split at hother <;> cases hother
      exact (h.declarationsFit _ _ hconstant).constant _ _ rfl
    · cases hout.symm.trans htype

/-- The checker that leaves a function knows the same constants as before it. -/
theorem InRange.popped (h : c.InRange u) {after : Scopes hash.name ConstantBinding}
    (hok : c.scopes.push.pop = .ok after) : InRange u ⟨after, c.returnType⟩ := by
  obtain ⟨after', hpop, hafter, hlookup⟩ := h.scopes.pop_push
  obtain rfl := Except.ok.inj (hpop.symm.trans hok)
  exact ⟨hafter, fun name binding hname => h.constants name binding (hlookup name ▸ hname),
    h.returnType⟩

/-! ## Constant forms -/

theorem recordConstantForms_advances (h : u.Coherent) {form last : Option ExprId}
    {outer : List ExprId} (hform : u.HasForm form)
    (houter : ∀ id ∈ outer, id.index < u.exprs.size)
    (hok : recordConstantForms u form outer = .ok (last, v)) :
    u.Advances v ∧ v.HasForm last := by
  induction outer generalizing u form with
  | nil =>
      cases hok
      exact ⟨h.stays, hform⟩
  | cons next rest ih =>
      obtain ⟨hnext, hrest⟩ := List.forall_mem_cons.mp houter
      rw [recordConstantForms_cons] at hok
      have hmade : u.Advances (formAround u next form).2 ∧
          (formAround u next form).2.HasForm (formAround u next form).1 := by
        cases form with
        | none => exact ⟨h.stays, hform⟩
        | some result =>
            refine ⟨h.addExpr (exprFits_functionType (hform result rfl)) _, ?_⟩
            rintro made ⟨⟩
            exact (holds_addExpr u _ _).lt
      split at hok
      · cases hok
      · rename_i w hw
        have hrecorded := hmade.1.coherent.record hw hmade.2
        have hadvanced := hmade.1.trans hrecorded
        obtain ⟨hlast, hform'⟩ := ih hrecorded.coherent (hmade.2.grow hrecorded.grown)
          (fun id hid => hadvanced.expr_lt (hrest id hid)) hok
        exact ⟨hadvanced.trans hlast, hform'⟩

theorem leafConstantForm_inRange (hc : c.InRange u) (hid : id.index < u.exprs.size)
    {form : Option ExprId} (hok : c.leafConstantForm id (u.expr id) = .ok form) :
    u.HasForm form := by
  unfold leafConstantForm at hok
  split at hok
  · cases hok
    rintro made ⟨⟩
    exact hid
  · cases hok
    rintro made ⟨⟩
    exact hid
  · obtain ⟨binding, hbinding, rfl⟩ := Except.map_eq_ok_iff.mp hok
    rintro made ⟨⟩
    exact (hc.constants _ _ (lookup_eq_ok_iff.mp hbinding)).1
  · cases hok
    exact nofun
  · cases hok
    exact nofun

theorem constantForm_advances (h : u.Coherent) (hc : c.InRange u) (hid : id.index < u.exprs.size)
    {answer : Answer hash (Option ExprId)} (hok : c.constantForm u id = .ok answer) :
    answer.Advances u HasForm := by
  obtain ⟨houter, hinner⟩ := h.descend_lt (pendingResult? u) (fun id inner hnext =>
    child?_of_functionResult? (pending?_eq_some_iff.mp hnext).2) hid
  unfold constantForm at hok
  obtain ⟨-, hok⟩ := checkIndex_bind_eq_ok_iff.mp hok
  generalize id.descend (pendingResult? u) [] = reached at hok houter hinner
  obtain ⟨outer, inner⟩ := reached
  dsimp only at hok houter hinner
  split at hok
  · rename_i form hfound
    obtain ⟨⟨last, w⟩, hlast, hok⟩ := Except.bind_eq_ok_iff.mp hok
    cases hok
    have hform : u.HasForm form := fun made hmade =>
      (h.findingsFit inner).constantForm made (hfound.trans (congrArg some hmade))
    obtain ⟨hadvances, hform'⟩ := recordConstantForms_advances h hform houter hlast
    exact ⟨hadvances, by rintro value ⟨⟩; exact hform'⟩
  · split at hok
    · cases hok
      exact h.failed _
    · rename_i form hleaf
      obtain ⟨w, hw, hok⟩ := Except.bind_eq_ok_iff.mp hok
      obtain ⟨⟨last, x⟩, hlast, hok⟩ := Except.bind_eq_ok_iff.mp hok
      cases hok
      have hform := leafConstantForm_inRange hc hinner hleaf
      have hrecorded := h.record hw hform
      obtain ⟨hadvances, hform'⟩ := recordConstantForms_advances hrecorded.coherent
        (hform.grow hrecorded.grown)
        (fun id hid => hrecorded.expr_lt (houter id hid)) hlast
      exact ⟨hrecorded.trans hadvances, by rintro value ⟨⟩; exact hform'⟩

/-! ## Denoted types -/

theorem recordDenotedTypes_advances (h : u.Coherent) {type last : Option TypeId}
    {outer : List ExprId} (htype : ∀ made, type = some made → u.HasType made)
    (houter : ∀ id ∈ outer, id.index < u.exprs.size)
    (hok : recordDenotedTypes u type outer = .ok (last, v)) :
    u.Advances v ∧ ∀ made, last = some made → v.HasType made := by
  induction outer generalizing u type with
  | nil =>
      cases hok
      exact ⟨h.stays, htype⟩
  | cons next rest ih =>
      obtain ⟨hnext, hrest⟩ := List.forall_mem_cons.mp houter
      rw [recordDenotedTypes_cons] at hok
      have hmade : u.Advances (typeAround u type).2 ∧ ∀ made, (typeAround u type).1 = some made →
          (typeAround u type).2.HasType made := by
        cases type with
        | none => exact ⟨h.stays, htype⟩
        | some result =>
            refine ⟨h.addFunctionType (htype result rfl), ?_⟩
            rintro made ⟨⟩
            exact (holdsType_addFunctionType u result).lt
      split at hok
      · cases hok
      · rename_i w hw
        have hrecorded := hmade.1.coherent.record hw hmade.2
        have hadvanced := hmade.1.trans hrecorded
        obtain ⟨hlast, htype'⟩ := ih hrecorded.coherent
          (fun made hsome => (hmade.2 made hsome).grow hrecorded.grown)
          (fun id hid => hadvanced.expr_lt (hrest id hid)) hok
        exact ⟨hadvanced.trans hlast, htype'⟩

theorem leafDenotedType_inRange (h : u.Coherent) {expr : Expr} {type : TypeId}
    (htype : leafDenotedType expr = some type) : u.HasType type := by
  unfold leafDenotedType at htype
  split at htype <;> cases htype
  exact h.hasType _

theorem denotedType_advances (h : u.Coherent) (hid : id.index < u.exprs.size)
    {type : Option TypeId} (hok : denotedType u id = .ok (type, v)) :
    u.Advances v ∧ ∀ made, type = some made → v.HasType made := by
  obtain ⟨houter, hinner⟩ := h.descend_lt (pendingDenotation? u) (fun id inner hnext =>
    child?_of_functionResult? (pending?_eq_some_iff.mp hnext).2) hid
  unfold denotedType at hok
  obtain ⟨-, hok⟩ := checkIndex_bind_eq_ok_iff.mp hok
  generalize id.descend (pendingDenotation? u) [] = reached at hok houter hinner
  obtain ⟨outer, inner⟩ := reached
  dsimp only at hok houter hinner
  split at hok
  · rename_i found hfound
    exact recordDenotedTypes_advances h (fun made hmade =>
      (h.findingsFit inner).denotedType made (hfound.trans (congrArg some hmade))) houter hok
  · obtain ⟨w, hw, hok⟩ := Except.bind_eq_ok_iff.mp hok
    have hleaf : ∀ made, leafDenotedType (u.expr inner).expr = some made → u.HasType made :=
      fun made hmade => leafDenotedType_inRange h hmade
    have hrecorded := h.record hw hleaf
    obtain ⟨hadvances, htype⟩ := recordDenotedTypes_advances hrecorded.coherent
      (fun made hmade => (hleaf made hmade).grow hrecorded.grown)
      (fun id hid => hrecorded.expr_lt (houter id hid)) hok
    exact ⟨hrecorded.trans hadvances, htype⟩

/-! ## Types of expressions -/

theorem leafType_inRange (h : u.Coherent) (hc : c.InRange u) {node : ExprNode} {type : TypeId}
    (hok : c.leafType node = .ok type) : u.HasType type := by
  unfold leafType at hok
  split at hok
  · cases hok
    exact h.hasType _
  · obtain ⟨binding, hbinding, rfl⟩ := Except.map_eq_ok_iff.mp hok
    exact (hc.constants _ _ (lookup_eq_ok_iff.mp hbinding)).2
  · cases hok
    exact h.hasType _
  · cases hok
    exact h.hasType _
  · cases hok
    exact h.hasType _

theorem typeOfValue_advances (h : u.Coherent) (hc : c.InRange u) {answer : Answer hash TypeId}
    (hok : c.typeOfValue u id = .ok answer) :
    answer.Advances u HasType := by
  unfold typeOfValue at hok
  split at hok
  · rename_i type hfound
    cases hok
    refine ⟨h.stays, ?_⟩
    rintro value ⟨⟩
    exact (h.findingsFit id).type type hfound
  · split at hok
    · cases hok
      exact h.failed _
    · rename_i type htype
      obtain ⟨w, hw, rfl⟩ := Except.map_eq_ok_iff.mp hok
      have hlt := leafType_inRange h hc htype
      have hrecorded := h.record hw hlt
      refine ⟨hrecorded, ?_⟩
      rintro value ⟨⟩
      exact hlt.grow hrecorded.grown

theorem typeReturns_advances (h : u.Coherent) {expected actual : TypeId} {value : ExprId}
    {returns : List ExprId} {answer : Answer hash TypeId} (hactual : u.HasType actual)
    (hreturns : ∀ id ∈ returns, id.index < u.exprs.size)
    (hok : typeReturns u expected value actual returns = .ok answer) :
    answer.Advances u HasType := by
  induction returns generalizing u value actual with
  | nil =>
      cases hok
      refine ⟨h.stays, ?_⟩
      rintro value ⟨⟩
      exact hactual
  | cons next rest ih =>
      obtain ⟨hnext, hrest⟩ := List.forall_mem_cons.mp hreturns
      obtain ⟨-, hok⟩ := compareTypes_bind_eq_ok_iff.mp hok
      split at hok
      · obtain ⟨w, hw, hok⟩ := Except.bind_eq_ok_iff.mp hok
        have hrecorded := h.record hw (h.hasType .never)
        have hlast := ih hrecorded.coherent (hrecorded.coherent.hasType .never)
          (fun id hid => hrecorded.expr_lt (hrest id hid)) hok
        exact ⟨hrecorded.trans hlast.unit, hlast.value⟩
      · cases hok
        exact h.failed _

theorem typeOf_advances (h : u.Coherent) (hc : c.InRange u) (hid : id.index < u.exprs.size)
    {answer : Answer hash TypeId} (hok : c.typeOf u id = .ok answer) :
    answer.Advances u HasType := by
  obtain ⟨houter, hinner⟩ := h.descend_lt (pendingValue? u) (fun id inner hnext =>
    child?_of_returnedValue? (pending?_eq_some_iff.mp hnext).2) hid
  unfold typeOf at hok
  obtain ⟨-, hok⟩ := checkIndex_bind_eq_ok_iff.mp hok
  generalize id.descend (pendingValue? u) [] = reached at hok houter hinner
  split at hok
  · exact typeOfValue_advances h hc hok
  · split at hok
    · cases hok
      exact h.failed _
    · obtain ⟨first, hfirst, hok⟩ := Except.bind_eq_ok_iff.mp hok
      have hvalue := typeOfValue_advances h hc hfirst
      refine hvalue.andThen hok fun actual hactual hreturns => ?_
      exact typeReturns_advances hvalue.unit.coherent hactual
        (fun id hid => hvalue.unit.expr_lt (houter id hid)) hreturns

/-! ## Items -/

theorem denotationError_advances (h : u.Coherent) (hc : c.InRange u)
    (hid : id.index < u.exprs.size) {answer : Answer hash TypeId}
    (hok : c.denotationError u id = .ok answer) : answer.Advances u HasType := by
  unfold denotationError at hok
  obtain ⟨first, hfirst, hok⟩ := Except.bind_eq_ok_iff.mp hok
  have htarget : ((u.functionResult? id).getD id).index < u.exprs.size := by
    cases hresult : u.functionResult? id with
    | none => exact hid
    | some result =>
        exact Nat.lt_trans (h.exprsDescend _ _ (child?_of_functionResult? hresult)) hid
  have htyped := typeOf_advances h hc htarget hfirst
  refine htyped.andThen hok fun actual _ hlast => ?_
  cases hlast
  exact htyped.unit.coherent.failed _

theorem denotedReturnType_advances (h : u.Coherent) (hc : c.InRange u)
    (hid : id.index < u.exprs.size) {answer : Answer hash TypeId}
    (hok : c.denotedReturnType u id = .ok answer) : answer.Advances u HasType := by
  unfold denotedReturnType at hok
  obtain ⟨⟨type?, w⟩, hw, hok⟩ := Except.bind_eq_ok_iff.mp hok
  obtain ⟨hadvances, htype⟩ := denotedType_advances h hid hw
  cases type? with
  | none =>
      have hlast := denotationError_advances hadvances.coherent (hc.grow hadvances.grown)
        (hadvances.expr_lt hid) hok
      exact ⟨hadvances.trans hlast.unit, hlast.value⟩
  | some type =>
      obtain ⟨-, hok⟩ := checkIndex_bind_eq_ok_iff.mp hok
      cases hnode : w.typeNode type with
      | base kind =>
          rw [hnode] at hok
          cases hok
      | function result =>
          rw [hnode] at hok
          cases hok
          refine ⟨hadvances, ?_⟩
          rintro value ⟨⟩
          have hholds := holdsType_typeNode (htype type rfl)
          exact hadvances.coherent.typesFit type result (hnode ▸ hholds)

theorem returnTypeOf_advances (h : u.Coherent) (hc : c.InRange u) (hid : id.index < u.exprs.size)
    {answer : Answer hash TypeId} (hok : c.returnTypeOf u id = .ok answer) :
    answer.Advances u HasType := by
  unfold returnTypeOf at hok
  obtain ⟨first, hfirst, hok⟩ := Except.bind_eq_ok_iff.mp hok
  have hformed := constantForm_advances h hc hid hfirst
  refine hformed.andThen hok fun form hform hok => ?_
  obtain ⟨second, hsecond, hok⟩ := Except.bind_eq_ok_iff.mp hok
  have hevaluated : (form.getD id).index < first.unit.exprs.size := by
    cases form with
    | none => exact hformed.unit.expr_lt hid
    | some made => exact hform made rfl
  have hc₁ := hc.grow hformed.unit.grown
  have htyped := typeOf_advances hformed.unit.coherent hc₁ hevaluated hsecond
  refine htyped.andThen hok fun type _ hlast => ?_
  obtain ⟨-, hlast⟩ := compareTypes_bind_eq_ok_iff.mp hlast
  split at hlast
  · exact denotedReturnType_advances htyped.unit.coherent (hc₁.grow htyped.unit.grown)
      (htyped.unit.expr_lt hevaluated) hlast
  · cases hlast
    exact htyped.unit.coherent.failed _

theorem checkBody_advances (h : u.Coherent) (hc : c.InRange u) (hid : id.index < u.exprs.size)
    {expected : TypeId} (hexpected : u.HasType expected) {answer : Answer hash Unit}
    (hok : c.checkBody u expected id = .ok (answer, d)) :
    u.Advances answer.unit ∧ d.InRange answer.unit := by
  obtain ⟨typed, scopes, htyped, hpop, rfl, rfl⟩ := checkBody_eq_ok_iff.mp hok
  have hadvances := (typeOf_advances h (hc.inside hexpected) hid htyped).unit
  exact ⟨hadvances, (hc.popped hpop).grow hadvances.grown⟩

/-- The check of an item leaves a coherent unit, and a checker that fits it. -/
theorem check_advances (h : u.Coherent) (hc : c.InRange u) {item : ItemId}
    (hitem : item.index < u.items.size) {answer : Answer hash Unit}
    (hok : c.check u item = .ok (answer, d)) :
    u.Advances answer.unit ∧ d.InRange answer.unit := by
  have hfits := h.itemsFit item _ (holdsItem_item hitem)
  unfold check at hok
  obtain ⟨-, hok⟩ := checkIndex_bind_eq_ok_iff.mp hok
  obtain ⟨first, hfirst, hok⟩ := Except.bind_eq_ok_iff.mp hok
  have hreturn := returnTypeOf_advances h hc hfits.signature hfirst
  have hc₁ := hc.grow hreturn.unit.grown
  split at hok
  · cases hok
    exact ⟨hreturn.unit, hc₁⟩
  · rename_i expected hexpected
    obtain ⟨hbody, hd⟩ := checkBody_advances hreturn.unit.coherent hc₁
      (hreturn.unit.expr_lt hfits.body)
      (hreturn.value expected hexpected) hok
    exact ⟨hreturn.unit.trans hbody, hd⟩

end Checker

/-- Also a check with a checker of its own leaves a coherent unit. -/
theorem CompilationUnit.Coherent.check (h : u.Coherent) {prelude : Prelude}
    (hprelude : prelude = .empty ∨ prelude.IsStandard u) {item : ItemId}
    (hitem : item.index < u.items.size) {answer : Answer hash Unit}
    (hok : u.check item prelude = .ok answer) : u.Advances answer.unit := by
  unfold CompilationUnit.check at hok
  obtain ⟨c, hc, hok⟩ := Except.bind_eq_ok_iff.mp hok
  obtain ⟨⟨answer', d⟩, hchecked, hok⟩ := Except.bind_eq_ok_iff.mp hok
  cases hok
  exact (Checker.check_advances h (Checker.ofPrelude_inRange h hprelude hc) hitem hchecked).1

end FrontEnd
