import FrontEnd.Proofs.Except
import FrontEnd.Proofs.Typing.ExpressionTypes

/-! # Checking items of sound units

The check of an item is answered unless its signature denotes a base type, and an item that passes
has a declared return type and a type for its body. -/

namespace FrontEnd.Checker

open CompilationUnit

variable {hash : Hasher} {constants : Constants} {u v : CompilationUnit hash} {c : Checker hash}
  {id : ExprId}

/-! ## Signatures -/

theorem typeOf_of_not_pending (hid : id.index < u.exprs.size) (hstop : pendingValue? u id = none) :
    c.typeOf u id = c.typeOfValue u id := by
  rw [typeOf, checkIndex_bind_of_lt hid, ExprId.descend_of_none hstop]

/-- Outside of functions a return has no type, unless one was found for it. -/
theorem typeOf_stray (hdown : LeadsDown (pendingValue? u)) (hout : c.returnType = none)
    {value : ExprId} (hpending : pendingValue? u id = some value) :
    c.typeOf u id = .ok ⟨.error (.strayReturn (u.expr id).pos), u⟩ := by
  obtain ⟨-, pos, hholds⟩ := pendingValue?_eq_some_iff.mp hpending
  obtain ⟨htrail, hstop⟩ := ExprId.descend_spec hdown (.stay id)
  rw [typeOf, checkIndex_bind_of_lt hholds.lt]
  generalize id.descend (pendingValue? u) [] = reached at htrail hstop ⊢
  obtain ⟨outer, inner⟩ := reached
  cases outer with
  | nil =>
      cases htrail
      cases hpending.symm.trans hstop
  | cons next rest =>
      simp only [hout]
      rfl

theorem inside_of_outside (hout : c.returnType = none) : Inside u id c := by
  intro expected hexpected
  rw [hout] at hexpected
  cases hexpected

/-- The type of a function type expression is the type of types. -/
theorem typeOf_functionType (h : u.Sound constants) (hfits : c.Fits constants) {result : ExprId}
    {pos : Position} (hholds : u.Holds id (.functionType result) pos) :
    ∃ answer, c.typeOf u id = .ok answer ∧ answer.value = .ok BaseType.type.typeId ∧
      answer.unit.Sound constants ∧ u.Asked answer.unit := by
  have hstop : pendingValue? u id = none := by
    rw [Option.eq_none_iff_forall_ne_some]
    intro value hvalue
    obtain ⟨-, pos', hreturn⟩ := pendingValue?_eq_some_iff.mp hvalue
    cases (hholds.unique hreturn).1
  obtain ⟨answer, hanswer, hsound, hasked, -, ⟨type, hok, htype⟩ | ⟨-, name, pos', -, hname, -⟩⟩ :=
    typeOfValue_spec h hfits hholds.lt hstop
  · refine ⟨answer, by rw [typeOf_of_not_pending hholds.lt hstop, hanswer], ?_, hsound, hasked⟩
    have hholds' := hasked.holds hholds
    rw [hok]
    exact congrArg Except.ok ((hsound.typed id type htype).of_holds hholds')
  · cases (hholds.unique hname).1

/-- Where a signature denotes no type there is an error. -/
theorem denotationError_spec (h : u.Sound constants) (hfits : c.Fits constants)
    (hout : c.returnType = none) (hid : id.index < u.exprs.size) :
    ∃ answer, c.denotationError u id = .ok answer ∧ answer.unit.Sound constants ∧
      u.Asked answer.unit ∧ ∃ e, answer.value = .error e := by
  have htarget : ((u.functionResult? id).getD id).index < u.exprs.size := by
    cases hresult : u.functionResult? id with
    | none => exact hid
    | some result =>
        obtain ⟨pos, hholds⟩ := functionResult?_eq_some_iff.mp hresult
        exact Nat.lt_trans (h.exprsDescend id result (child?_of_holds hholds)) hid
  obtain ⟨answer, hanswer, hsound, -, hasked, hcases⟩ :=
    typeOf_spec h hfits htarget (inside_of_outside hout)
  unfold denotationError
  rcases hcases with ⟨type, hok, -⟩ | ⟨e, herror⟩
  · refine ⟨⟨.error (.mismatch BaseType.type.typeId type
      (answer.unit.expr ((u.functionResult? id).getD id)).pos), answer.unit⟩, ?_, hsound,
      hasked hout, _, rfl⟩
    simp only [hanswer, Bind.bind, Except.bind, Answer.andThen_of_ok hok]
  · refine ⟨⟨.error e, answer.unit⟩, ?_, hsound, hasked hout, e, rfl⟩
    simp only [hanswer, Bind.bind, Except.bind, Answer.andThen_of_error herror]

/-- A function type expression denotes a function type, and what denotes a base type is none. -/
theorem denotedReturnType_spec (h : u.Sound constants) (hfits : c.Fits constants)
    (hout : c.returnType = none) (hid : id.index < u.exprs.size) :
    (∃ kind, c.denotedReturnType u id = .error (.signatureIsBaseType kind) ∧
      ∀ result pos, ¬ u.Holds id (.functionType result) pos) ∨
    ∃ answer, c.denotedReturnType u id = .ok answer ∧ answer.unit.Sound constants ∧
      u.Asked answer.unit ∧
      ((∃ type result, answer.value = .ok result ∧
        (answer.unit.findingsOf id).denotedType = some (some type) ∧
        answer.unit.HoldsType type (.function result)) ∨
      ((answer.unit.findingsOf id).denotedType = some none ∧ ∃ e, answer.value = .error e)) := by
  obtain ⟨type?, v, hv, hsound, hasked, hfound⟩ := denotedType_spec h hid
  have hdenotes := hsound.denoted id type? hfound
  have hidv : id.index < v.exprs.size := Nat.lt_of_lt_of_le hid hasked.exprs.size_le
  unfold denotedReturnType
  simp only [hv, Bind.bind, Except.bind]
  cases type? with
  | none =>
      obtain ⟨answer, hanswer, hsound', hasked', e, herror⟩ :=
        denotationError_spec hsound hfits hout hidv
      exact .inr ⟨answer, hanswer, hsound', hasked.trans hasked',
        .inr ⟨(hasked'.findings id).denotedType _ hfound, e, herror⟩⟩
  | some type =>
      cases hdenotes with
      | baseType hholds =>
          rename_i kind pos
          refine .inl ⟨kind, ?_, fun result pos' hfunction => ?_⟩
          · have hnode := hsound.baseTypes kind
            simp only [checkIndex_of_lt hnode.lt, hnode.typeNode_eq]
            rfl
          · cases (hholds.unique (hasked.holds hfunction)).1
      | @function _ _ inner _ _ hholds hresult hnode =>
          refine .inr ⟨⟨.ok inner, v⟩, ?_, hsound, hasked, .inl ⟨type, inner, rfl, hfound, hnode⟩⟩
          simp only [checkIndex_of_lt hnode.lt, hnode.typeNode_eq]
          rfl

/-- Why a signature has no return type: a name in it is out of scope, or its constant form is no
function type expression, or is one that denotes no type. -/
inductive BadSignature (u after : CompilationUnit hash) (c : Checker hash) (signature : ExprId)
    (e : TypingError) : Prop where
  | unknownName (leaf : ExprId) (name : Name) (pos : Position) (hsame : after = u)
      (herror : e = .unknownName name pos) (hleaf : u.FunctionsTo signature leaf)
      (hholds : u.Holds leaf (.name name) pos) (hscope : c.scopes.lookup name = none)
  | noFunctionType (form : Option ExprId)
      (hform : (after.findingsOf signature).constantForm = some form)
      (hnone : ∀ evaluated result pos, form = some evaluated →
        after.Holds evaluated (.functionType result) pos → after.Denotes evaluated none)

/-- A signature has a return type or there is an error, unless it denotes a base type. -/
theorem returnTypeOf_spec (h : u.Sound constants) (hfits : c.Fits constants)
    (hout : c.returnType = none) (hid : id.index < u.exprs.size) :
    (∃ kind, c.returnTypeOf u id = .error (.signatureIsBaseType kind) ∧
      ∀ result pos, ¬ u.Holds id (.functionType result) pos) ∨
    ∃ answer, c.returnTypeOf u id = .ok answer ∧ answer.unit.Sound constants ∧
      u.Asked answer.unit ∧
      ((∃ form type result, answer.value = .ok result ∧
        (answer.unit.findingsOf id).constantForm = some form ∧
        (answer.unit.findingsOf (form.getD id)).denotedType = some (some type) ∧
        answer.unit.HoldsType type (.function result)) ∨
      ∃ e, answer.value = .error e ∧ BadSignature u answer.unit c id e) := by
  obtain ⟨first, hfirst, hsound₁, hasked₁, ⟨form, hok, hform⟩ | ⟨hsame, leaf, name, pos, herror,
    hleaf, hholds, hscope⟩⟩ := constantForm_spec h hfits hid
  · have hevaluated : (form.getD id).index < first.unit.exprs.size := by
      cases form with
      | none => exact Nat.lt_of_lt_of_le hid hasked₁.exprs.size_le
      | some evaluated => exact form_lt hsound₁.evaluable (hsound₁.forms id _ hform)
    have hfunction : ∀ result pos, u.Holds id (.functionType result) pos →
        ∃ result pos, first.unit.Holds (form.getD id) (.functionType result) pos := by
      intro result pos hholds
      have hholds' := hasked₁.holds hholds
      obtain ⟨rfl, -⟩ | ⟨inner, made, rfl, -, hmade⟩ :=
        (hsound₁.forms id form hform).of_holds hholds'
      · exact ⟨_, _, hholds'⟩
      · exact ⟨_, _, hmade⟩
    simp only [returnTypeOf, hfirst, Bind.bind, Except.bind, Answer.andThen_of_ok hok]
    by_cases hfun : ∃ result pos, first.unit.Holds (form.getD id) (.functionType result) pos
    · obtain ⟨inner, pos, hholds⟩ := hfun
      obtain ⟨second, hsecond, htype, hsound₂, hasked₂⟩ := typeOf_functionType hsound₁ hfits hholds
      have hholds₂ := hasked₂.holds hholds
      simp only [hsecond, Answer.andThen_of_ok htype, compareTypes_self, if_true]
      rcases denotedReturnType_spec hsound₂ hfits hout hholds₂.lt with
        ⟨kind, -, hnot⟩ | ⟨third, hthird, hsound₃, hasked₃, hcases⟩
      · exact absurd hholds₂ (hnot inner pos)
      · have hform₃ := ((hasked₂.trans hasked₃).findings id).constantForm form hform
        refine .inr ⟨third, hthird, hsound₃, (hasked₁.trans hasked₂).trans hasked₃, ?_⟩
        rcases hcases with ⟨type, result, hresult, hfound, hnode⟩ | ⟨hfound, e, herror⟩
        · exact .inl ⟨form, type, result, hresult, hform₃, hfound, hnode⟩
        · refine .inr ⟨e, herror, .noFunctionType form hform₃ ?_⟩
          rintro evaluated result pos rfl -
          exact hsound₃.denoted _ _ hfound
    · obtain ⟨second, hsecond, hsound₂, -, hasked, hcases⟩ :=
        typeOf_spec hsound₁ hfits hevaluated (inside_of_outside hout)
      have hasked₂ := hasked hout
      have hnone : ∀ {after : CompilationUnit hash}, first.unit.Asked after →
          ∀ evaluated result pos, form = some evaluated →
            after.Holds evaluated (.functionType result) pos → after.Denotes evaluated none := by
        rintro after hafter evaluated result pos rfl hholds
        exact absurd ⟨result, pos, (hafter.holds_iff hevaluated).mp hholds⟩ hfun
      simp only [hsecond]
      rcases hcases with ⟨type, hok₂, htype, -⟩ | ⟨e, herror⟩
      · have hlt := typed_lt hsound₂ (hsound₂.typed _ type htype)
        simp only [Answer.andThen_of_ok hok₂,
          compareTypes_of_lt hlt (hsound₂.baseTypes .type).lt]
        split
        · rcases denotedReturnType_spec hsound₂ hfits hout
            (Nat.lt_of_lt_of_le hevaluated hasked₂.exprs.size_le) with
            ⟨kind, hbreach, -⟩ | ⟨third, hthird, hsound₃, hasked₃, hcases⟩
          · exact .inl ⟨kind, hbreach, fun result pos hholds => hfun (hfunction result pos hholds)⟩
          · have hform₃ := ((hasked₂.trans hasked₃).findings id).constantForm form hform
            refine .inr ⟨third, hthird, hsound₃, (hasked₁.trans hasked₂).trans hasked₃, ?_⟩
            rcases hcases with ⟨type, result, hresult, hfound, hnode⟩ | ⟨hfound, e, herror⟩
            · exact .inl ⟨form, type, result, hresult, hform₃, hfound, hnode⟩
            · exact .inr ⟨e, herror, .noFunctionType form hform₃ (hnone (hasked₂.trans hasked₃))⟩
        · refine .inr ⟨_, rfl, hsound₂, hasked₁.trans hasked₂, .inr ⟨_, rfl, ?_⟩⟩
          exact .noFunctionType form ((hasked₂.findings id).constantForm form hform)
            (hnone hasked₂)
      · simp only [Answer.andThen_of_error herror]
        refine .inr ⟨_, rfl, hsound₂, hasked₁.trans hasked₂, .inr ⟨_, rfl, ?_⟩⟩
        exact .noFunctionType form ((hasked₂.findings id).constantForm form hform) (hnone hasked₂)
  · refine .inr ⟨⟨.error (.unknownName name pos), first.unit⟩, ?_, hsound₁, hasked₁,
      .inr ⟨_, rfl, .unknownName leaf name pos hsame rfl hleaf hholds hscope⟩⟩
    simp only [returnTypeOf, hfirst, Bind.bind, Except.bind, Answer.andThen_of_error herror]

/-! ## Bodies and items -/

/-- A checker that answers as another one does. -/
structure Alike (c d : Checker hash) : Prop where
  scopes : d.scopes.WellFormed
  lookup_eq : ∀ name, d.scopes.lookup name = c.scopes.lookup name
  returnType_eq : d.returnType = c.returnType

theorem Alike.fits {d : Checker hash} (h : c.Alike d) (hfits : c.Fits constants) :
    d.Fits constants where
  scopes := h.scopes
  within name binding hname := hfits.within name binding ((h.lookup_eq name).symm.trans hname)

/-- A body is asked about in a scope of its own, which is closed again. -/
theorem checkBody_eq_ok_iff {d : Checker hash} {expected : TypeId} {body : ExprId}
    {answer : Answer hash Unit} : c.checkBody u expected body = .ok (answer, d) ↔ ∃ typed scopes,
      typeOf ⟨c.scopes.push, some expected⟩ u body = .ok typed ∧ c.scopes.push.pop = .ok scopes ∧
      answer = ⟨typed.value.map fun _ => (), typed.unit⟩ ∧ d = ⟨scopes, c.returnType⟩ := by
  constructor
  · intro hok
    unfold checkBody at hok
    obtain ⟨typed, htyped, hok⟩ := Except.bind_eq_ok_iff.mp hok
    obtain ⟨scopes, hpop, hok⟩ := Except.bind_eq_ok_iff.mp hok
    cases hok
    exact ⟨typed, scopes, htyped, hpop, rfl, rfl⟩
  · rintro ⟨typed, scopes, htyped, hpop, rfl, rfl⟩
    simp only [checkBody, htyped, hpop, Bind.bind, Except.bind]
    rfl

/-- A body has a type or there is an error. A return that had no type before then returns a value
of the expected type. -/
theorem checkBody_spec (h : u.Sound constants) (hfits : c.Fits constants) {item : ItemId}
    {function : FunctionItem} (hitem : u.HoldsItem item function) {expected : TypeId}
    (hdeclared : u.declaredReturn? function = some expected) :
    ∃ answer d, c.checkBody u expected function.body = .ok (answer, d) ∧
      answer.unit.Sound constants ∧ u.Queried answer.unit ∧ c.Alike d ∧
      ((answer.value = .ok () ∧
        ∃ type, (answer.unit.findingsOf function.body).type = some type ∧
          ∀ inner, pendingValue? u function.body = some inner → ∃ found,
            (answer.unit.findingsOf inner).type = some found ∧
            answer.unit.Alike expected found) ∨
      ∃ e, answer.value = .error e) := by
  have hinside : Inside u function.body ⟨c.scopes.push, some expected⟩ := by
    rintro _ ⟨⟩
    exact ⟨item, function, hitem, rfl, hdeclared⟩
  obtain ⟨answer, hanswer, hsound, hqueried, -, hcases⟩ :=
    typeOf_spec h (hfits.inside expected) (h.items item function hitem).2 hinside
  obtain ⟨scopes, hpop, hscopes, hlookup⟩ := hfits.scopes.pop_push
  refine ⟨⟨answer.value.map fun _ => (), answer.unit⟩, ⟨scopes, c.returnType⟩, ?_, hsound,
    hqueried, ⟨hscopes, hlookup, rfl⟩, ?_⟩
  · exact checkBody_eq_ok_iff.mpr ⟨answer, scopes, hanswer, hpop, rfl, rfl⟩
  · rcases hcases with ⟨type, hok, htype, hinner⟩ | ⟨e, herror⟩
    · refine .inl ⟨by rw [hok]; rfl, type, htype, fun inner hpending => ?_⟩
      obtain ⟨expected', found, hexpected, hfound, halike⟩ := hinner inner hpending
      cases hexpected
      exact ⟨found, hfound, halike⟩
    · exact .inr ⟨e, by rw [herror]; rfl⟩

/-- The check of an item is answered, unless its signature denotes a base type. An item that
passes has a declared return type, and a return that had no type before returns a value of it. -/
theorem check_spec (h : u.Sound constants) (hfits : c.Fits constants)
    (hout : c.returnType = none) {item : ItemId} {function : FunctionItem}
    (hitem : u.HoldsItem item function) :
    (∃ kind, c.check u item = .error (.signatureIsBaseType kind) ∧
      ∀ result pos, ¬ u.Holds function.signature (.functionType result) pos) ∨
    ∃ answer d, c.check u item = .ok (answer, d) ∧ answer.unit.Sound constants ∧
      u.Queried answer.unit ∧ c.Alike d ∧
      ((answer.value = .ok () ∧ ∃ expected type,
        answer.unit.declaredReturn? function = some expected ∧
        (answer.unit.findingsOf function.body).type = some type ∧
        ∀ inner, pendingValue? u function.body = some inner → ∃ found,
          (answer.unit.findingsOf inner).type = some found ∧ answer.unit.Alike expected found) ∨
      ∃ e, answer.value = .error e) := by
  simp only [check, checkIndex_bind_of_lt hitem.lt, hitem.item_eq]
  rcases returnTypeOf_spec h hfits hout (h.items item function hitem).1 with
    ⟨kind, hbreach, hnot⟩ | ⟨first, hfirst, hsound, hasked, hcases⟩
  · exact .inl ⟨kind, by rw [hbreach]; rfl, hnot⟩
  · simp only [hfirst, Bind.bind, Except.bind]
    rcases hcases with ⟨form, type, expected, hok, hform, htype, hnode⟩ | ⟨e, herror, -⟩
    · have hdeclared := declaredReturn?_eq_some_iff.mpr ⟨form, type, hform, htype, hnode⟩
      obtain ⟨answer, d, hanswer, hsound', hqueried, hsame, hcases⟩ :=
        checkBody_spec hsound hfits (hasked.holdsItem hitem) hdeclared
      simp only [hok, hanswer]
      refine .inr ⟨answer, d, rfl, hsound', hasked.toQueried.trans hqueried, hsame, ?_⟩
      rcases hcases with ⟨hok', bodyType, hbody, hinner⟩ | herror
      · refine .inl ⟨hok', expected, bodyType, hqueried.declaredReturn? hdeclared, hbody,
          fun inner hpending => hinner inner ?_⟩
        obtain ⟨hnone, pos, hholds⟩ := pendingValue?_eq_some_iff.mp hpending
        refine pendingValue?_eq_some_iff.mpr ⟨?_, pos, hasked.holds hholds⟩
        rw [hasked.returnType_eq _ _ _ hholds, hnone]
      · exact .inr herror
    · simp only [herror]
      exact .inr ⟨_, c, rfl, hsound, hasked.toQueried, ⟨hfits.scopes, fun _ => rfl, rfl⟩,
        .inr ⟨e, rfl⟩⟩

end FrontEnd.Checker
