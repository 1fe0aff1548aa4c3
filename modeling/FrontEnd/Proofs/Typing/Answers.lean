import FrontEnd.Proofs.CompilationUnit.Listing
import FrontEnd.Proofs.CompilationUnit.Sizes
import FrontEnd.Proofs.Typing.Repetition

/-! # What answers add and name

An answer about a legible expression adds no more expressions and types than this expression is
deep, and an error names what is known. -/

namespace FrontEnd

variable {hash : Hasher}

namespace Answer

open CompilationUnit

variable {α β : Type} {u : CompilationUnit hash} {exprs types exprs' types' : Nat}

/-- An answer adds at most so many expressions and types, and an error names what is known. -/
structure Modest (u : CompilationUnit hash) (exprs types : Nat) (answer : Answer hash α) : Prop
    extends
    Adds u answer.unit exprs types where
  knows : ∀ name pos, answer.value = .error (.unknownName name pos) → answer.unit.Knows name

theorem Modest.of_ok {v : CompilationUnit hash} (h : u.Adds v exprs types) (value : α) :
    (⟨.ok value, v⟩ : Answer hash α).Modest u exprs types := ⟨h, nofun⟩

/-- What a next question adds comes on top. -/
theorem Modest.andThen {answer : Answer hash α} (h : answer.Modest u exprs types)
    {next : α → CompilationUnit hash → Except Breach (Answer hash β)} {last : Answer hash β}
    (hok : answer.andThen next = .ok last)
    (hnext : ∀ value, answer.value = .ok value → next value answer.unit = .ok last →
      last.Modest answer.unit exprs' types') :
    last.Modest u (exprs + exprs') (types + types') := by
  cases hvalue : answer.value with
  | error e =>
      rw [andThen_of_error hvalue] at hok
      cases hok
      refine ⟨h.toAdds.mono (Nat.le_add_right _ _) (Nat.le_add_right _ _),
        fun name pos herror => ?_⟩
      cases herror
      exact h.knows name pos hvalue
  | ok value =>
      rw [andThen_of_ok hvalue] at hok
      have hlast := hnext value hvalue hok
      exact ⟨h.toAdds.trans hlast.toAdds, hlast.knows⟩

/-- The types that an error tells of are there. -/
def KnowsTypes (answer : Answer hash α) : Prop :=
  ∀ expected actual pos, answer.value = .error (.mismatch expected actual pos) →
    expected.index < answer.unit.types.size ∧ actual.index < answer.unit.types.size

theorem KnowsTypes.of_ok (value : α) (u : CompilationUnit hash) :
    (⟨.ok value, u⟩ : Answer hash α).KnowsTypes := nofun

theorem KnowsTypes.andThen {answer : Answer hash α} (h : answer.KnowsTypes)
    {next : α → CompilationUnit hash → Except Breach (Answer hash β)} {last : Answer hash β}
    (hok : answer.andThen next = .ok last)
    (hnext : ∀ value, answer.value = .ok value → next value answer.unit = .ok last →
      last.KnowsTypes) : last.KnowsTypes := by
  cases hvalue : answer.value with
  | error e =>
      rw [andThen_of_error hvalue] at hok
      cases hok
      intro expected actual pos herror
      cases herror
      exact h expected actual pos hvalue
  | ok value =>
      rw [andThen_of_ok hvalue] at hok
      exact hnext value hvalue hok

end Answer

namespace CompilationUnit

/-- Types that differ were looked at. -/
theorem knowsTypes_of_differ {u : CompilationUnit hash} {expected actual : TypeId}
    (hindex : expected ≠ actual → expected.index < u.types.size ∧ actual.index < u.types.size)
    (hdiffer : ¬ u.sameType expected actual = true) :
    expected.index < u.types.size ∧ actual.index < u.types.size := by
  refine hindex ?_
  rintro rfl
  exact hdiffer (sameType_self u expected)

end CompilationUnit

namespace Checker

open CompilationUnit

variable {constants : Constants} {u v : CompilationUnit hash} {c : Checker hash} {id : ExprId}
  {depth : Nat}

/-! ## Constant forms -/

/-- Only a name that is out of scope is not looked up. -/
theorem lookup_map_eq_error {α : Type} {f : ConstantBinding → α} {name : Name} {pos : Position}
    {e : TypingError} (h : (c.lookup name pos).map f = .error e) : e = .unknownName name pos := by
  cases hlookup : c.lookup name pos with
  | ok binding =>
      rw [hlookup] at h
      cases h
  | error found =>
      rw [hlookup] at h
      cases h
      exact (lookup_eq_error_iff.mp hlookup).2

theorem leafConstantForm_eq_error {node : ExprNode} {e : TypingError}
    (h : c.leafConstantForm id node = .error e) :
    ∃ name, node.expr = .name name ∧ e = .unknownName name node.pos := by
  unfold leafConstantForm at h
  split at h
  · cases h
  · cases h
  · rename_i name hname
    exact ⟨name, hname, lookup_map_eq_error h⟩
  · cases h
  · cases h

theorem formAround_adds (u : CompilationUnit hash) (id : ExprId) (form : Option ExprId) :
    u.Adds (formAround u id form).2 1 0 := by
  cases form with
  | none => exact (Adds.refl u).mono (Nat.zero_le _) (Nat.le_refl _)
  | some result => exact adds_addExpr u _ _

theorem recordConstantForms_adds {form last : Option ExprId} {outer : List ExprId}
    (hok : recordConstantForms u form outer = .ok (last, v)) : u.Adds v outer.length 0 := by
  induction outer generalizing u form with
  | nil =>
      cases hok
      exact .refl _
  | cons next rest ih =>
      rw [recordConstantForms_cons] at hok
      split at hok
      · cases hok
      · rename_i w hw
        have hadds := (formAround_adds u next form).trans (adds_record hw)
        exact (hadds.trans (ih hok)).mono (by rw [List.length_cons]; omega) (Nat.le_refl _)

/-- At most one expression is made for each that is still pending. -/
theorem constantForm_adds {answer : Answer hash (Option ExprId)}
    (hok : c.constantForm u id = .ok answer) :
    u.Adds answer.unit (id.descend (pendingResult? u) []).1.length 0 := by
  unfold constantForm at hok
  obtain ⟨-, hok⟩ := checkIndex_bind_eq_ok_iff.mp hok
  generalize id.descend (pendingResult? u) [] = reached at hok ⊢
  obtain ⟨outer, inner⟩ := reached
  dsimp only at hok ⊢
  split at hok
  · obtain ⟨⟨last, v⟩, hlast, hok⟩ := Except.bind_eq_ok_iff.mp hok
    cases hok
    exact recordConstantForms_adds hlast
  · split at hok
    · cases hok
      exact (Adds.refl u).mono (Nat.zero_le _) (Nat.le_refl _)
    · obtain ⟨w, hw, hok⟩ := Except.bind_eq_ok_iff.mp hok
      obtain ⟨⟨last, v⟩, hlast, hok⟩ := Except.bind_eq_ok_iff.mp hok
      cases hok
      have hadds := (adds_record hw).trans (recordConstantForms_adds hlast)
      exact hadds.mono (by omega) (Nat.le_refl _)

/-- An error leaves the unit, and names the leaf. -/
theorem constantForm_eq_error {e : TypingError} {answer : Answer hash (Option ExprId)}
    (hok : c.constantForm u id = .ok answer) (he : answer.value = .error e) :
    answer.unit = u ∧ ∃ name, (u.expr (id.descend (pendingResult? u) []).2).expr = .name name ∧
      e = .unknownName name (u.expr (id.descend (pendingResult? u) []).2).pos := by
  unfold constantForm at hok
  obtain ⟨-, hok⟩ := checkIndex_bind_eq_ok_iff.mp hok
  generalize id.descend (pendingResult? u) [] = reached at hok ⊢
  obtain ⟨outer, inner⟩ := reached
  dsimp only at hok ⊢
  split at hok
  · obtain ⟨last, -, hok⟩ := Except.bind_eq_ok_iff.mp hok
    cases hok
    cases he
  · split at hok
    · rename_i hleaf
      cases hok
      cases he
      exact ⟨rfl, leafConstantForm_eq_error hleaf⟩
    · obtain ⟨w, -, hok⟩ := Except.bind_eq_ok_iff.mp hok
      obtain ⟨last, -, hok⟩ := Except.bind_eq_ok_iff.mp hok
      cases hok
      cases he

theorem constantForm_modest (h : u.Sound constants) (hid : u.Legible depth id)
    {answer : Answer hash (Option ExprId)} (hok : c.constantForm u id = .ok answer) :
    answer.Modest u depth 0 := by
  obtain ⟨htrail, -⟩ := ExprId.descend_spec (pendingResult?_leadsDown h.evaluable) (.stay id)
  obtain ⟨inside, hinner, rfl⟩ := hid.of_trail (htrail.congr fun next _ result hnext => by
    obtain ⟨-, pos, hholds⟩ := pendingResult?_eq_some_iff.mp hnext
    exact child?_of_holds hholds)
  refine ⟨(constantForm_adds hok).mono (Nat.le_add_left _ _) (Nat.le_refl _), ?_⟩
  intro name pos herror
  obtain ⟨hunit, found, hexpr, heq⟩ := constantForm_eq_error hok herror
  cases heq
  exact hunit ▸ hinner.knows (hexpr ▸ holds_expr hinner.lt)

/-! ## Denoted types -/

theorem typeAround_adds (u : CompilationUnit hash) (type : Option TypeId) :
    u.Adds (typeAround u type).2 0 1 := by
  cases type with
  | none => exact (Adds.refl u).mono (Nat.le_refl _) (Nat.zero_le _)
  | some result => exact adds_addFunctionType u _

theorem recordDenotedTypes_adds {type last : Option TypeId} {outer : List ExprId}
    (hok : recordDenotedTypes u type outer = .ok (last, v)) : u.Adds v 0 outer.length := by
  induction outer generalizing u type with
  | nil =>
      cases hok
      exact .refl _
  | cons next rest ih =>
      rw [recordDenotedTypes_cons] at hok
      split at hok
      · cases hok
      · rename_i w hw
        have hadds := (typeAround_adds u type).trans (adds_record hw)
        exact (hadds.trans (ih hok)).mono (Nat.le_refl _) (by rw [List.length_cons]; omega)

theorem denotedType_adds (h : u.Sound constants) (hid : u.Legible depth id)
    {type : Option TypeId} (hok : denotedType u id = .ok (type, v)) : u.Adds v 0 depth := by
  obtain ⟨htrail, -⟩ := ExprId.descend_spec (pendingDenotation?_leadsDown h.denotable) (.stay id)
  unfold denotedType at hok
  obtain ⟨-, hok⟩ := checkIndex_bind_eq_ok_iff.mp hok
  generalize id.descend (pendingDenotation? u) [] = reached at htrail hok
  obtain ⟨outer, inner⟩ := reached
  dsimp only at htrail hok
  obtain ⟨inside, -, rfl⟩ := hid.of_trail (htrail.congr fun next _ result hnext => by
    obtain ⟨-, pos, hholds⟩ := pendingDenotation?_eq_some_iff.mp hnext
    exact child?_of_holds hholds)
  have hle := Nat.le_add_left outer.length inside
  split at hok
  · exact (recordDenotedTypes_adds hok).mono (Nat.le_refl _) hle
  · obtain ⟨w, hrecord, hok⟩ := Except.bind_eq_ok_iff.mp hok
    have hadds := (adds_record hrecord).trans (recordDenotedTypes_adds hok)
    exact hadds.mono (Nat.le_refl _) (by omega)

/-! ## Types of expressions -/

theorem leafType_eq_error {node : ExprNode} {e : TypingError} (h : c.leafType node = .error e) :
    ∃ name, node.expr = .name name ∧ e = .unknownName name node.pos := by
  unfold leafType at h
  split at h
  · cases h
  · rename_i name hname
    exact ⟨name, hname, lookup_map_eq_error h⟩
  · cases h
  · cases h
  · cases h

theorem typeOfValue_modest (hid : u.Legible depth id) {answer : Answer hash TypeId}
    (hok : c.typeOfValue u id = .ok answer) : answer.Modest u 0 0 := by
  unfold typeOfValue at hok
  split at hok
  · cases hok
    exact .of_ok (.refl u) _
  · split at hok
    · rename_i e hleaf
      cases hok
      refine ⟨.refl u, fun name pos herror => ?_⟩
      cases herror
      obtain ⟨found, hexpr, heq⟩ := leafType_eq_error hleaf
      cases heq
      exact hid.knows (hexpr ▸ holds_expr hid.lt)
    · rename_i type hleaf
      cases hrecord : u.record .type id type with
      | error breach =>
          rw [hrecord] at hok
          cases hok
      | ok w =>
          rw [hrecord] at hok
          cases hok
          exact .of_ok (adds_record hrecord) _

theorem typeReturns_modest {expected actual : TypeId} {value : ExprId} {returns : List ExprId}
    {answer : Answer hash TypeId} (hok : typeReturns u expected value actual returns = .ok answer) :
    answer.Modest u 0 0 := by
  induction returns generalizing u value actual with
  | nil =>
      cases hok
      exact .of_ok (.refl u) _
  | cons next rest ih =>
      rw [typeReturns] at hok
      obtain ⟨-, hok⟩ := compareTypes_bind_eq_ok_iff.mp hok
      split at hok
      · obtain ⟨w, hrecord, hok⟩ := Except.bind_eq_ok_iff.mp hok
        have hlast := ih hok
        exact ⟨(adds_record hrecord).trans hlast.toAdds, hlast.knows⟩
      · cases hok
        refine ⟨.refl u, fun name pos herror => ?_⟩
        cases herror

theorem typeOf_modest (h : u.Sound constants) (hid : u.Legible depth id)
    {answer : Answer hash TypeId} (hok : c.typeOf u id = .ok answer) : answer.Modest u 0 0 := by
  obtain ⟨htrail, -⟩ := ExprId.descend_spec (pendingValue?_leadsDown h) (.stay id)
  unfold typeOf at hok
  obtain ⟨-, hok⟩ := checkIndex_bind_eq_ok_iff.mp hok
  generalize id.descend (pendingValue? u) [] = reached at htrail hok
  obtain ⟨outer, value⟩ := reached
  dsimp only at htrail
  obtain ⟨inside, hvalue, -⟩ := hid.of_trail (htrail.congr fun next _ result hnext => by
    obtain ⟨-, pos, hholds⟩ := pendingValue?_eq_some_iff.mp hnext
    exact child?_of_holds hholds)
  split at hok
  · rename_i heq
    cases heq
    exact typeOfValue_modest hvalue hok
  · rename_i heq
    cases heq
    split at hok
    · cases hok
      exact ⟨.refl u, nofun⟩
    · cases hfirst : c.typeOfValue u value with
      | error breach =>
          rw [hfirst] at hok
          cases hok
      | ok first =>
          simp only [hfirst, Bind.bind, Except.bind] at hok
          have hlast : answer.Modest u (0 + 0) (0 + 0) :=
            (typeOfValue_modest hvalue hfirst).andThen hok fun _ _ => typeReturns_modest
          exact hlast

/-! ## Items -/

theorem denotationError_modest (h : u.Sound constants) (hid : u.Legible depth id)
    {answer : Answer hash TypeId} (hok : c.denotationError u id = .ok answer) :
    answer.Modest u 0 0 := by
  have htarget : ∃ inner, u.Legible inner ((u.functionResult? id).getD id) := by
    cases hresult : u.functionResult? id with
    | none => exact ⟨depth, hid⟩
    | some result =>
        obtain ⟨pos, hholds⟩ := functionResult?_eq_some_iff.mp hresult
        obtain ⟨inner, hinner, -⟩ := hid.of_child (child?_of_holds hholds)
        exact ⟨inner, hinner⟩
  obtain ⟨inner, hinner⟩ := htarget
  unfold denotationError at hok
  cases hfirst : c.typeOf u ((u.functionResult? id).getD id) with
  | error breach =>
      simp only [hfirst, Bind.bind, Except.bind] at hok
      cases hok
  | ok first =>
      simp only [hfirst, Bind.bind, Except.bind] at hok
      have hlast : answer.Modest u (0 + 0) (0 + 0) :=
        (typeOf_modest h hinner hfirst).andThen hok fun _ _ hlast => by
          cases hlast
          exact ⟨.refl _, nofun⟩
      exact hlast

theorem denotedReturnType_modest (h : u.Sound constants) (hid : u.Legible depth id)
    {answer : Answer hash TypeId} (hok : c.denotedReturnType u id = .ok answer) :
    answer.Modest u 0 depth := by
  obtain ⟨type?, v, hv, hsound, hasked, -⟩ := denotedType_spec h hid.lt
  have hadds := denotedType_adds h hid hv
  unfold denotedReturnType at hok
  simp only [hv, Bind.bind, Except.bind] at hok
  cases type? with
  | none =>
      have hlast := denotationError_modest hsound (hid.grow hasked.toGrown) hok
      exact ⟨hadds.trans hlast.toAdds, hlast.knows⟩
  | some type =>
      obtain ⟨-, hok⟩ := checkIndex_bind_eq_ok_iff.mp hok
      split at hok <;> cases hok
      exact .of_ok hadds _

theorem returnTypeOf_modest (h : u.Sound constants) (hfits : c.Fits constants)
    (hout : c.returnType = none) (hconstants : u.ConstantsLegible constants)
    (hid : u.Legible depth id) {answer : Answer hash TypeId}
    (hok : c.returnTypeOf u id = .ok answer) : answer.Modest u depth depth := by
  obtain ⟨first, hfirst, hsound, hasked, hcases⟩ := constantForm_spec h hfits hid.lt
  unfold returnTypeOf at hok
  simp only [hfirst, Bind.bind, Except.bind] at hok
  have hlast : answer.Modest u (depth + (0 + 0)) (0 + (0 + depth)) := by
    refine (constantForm_modest h hid hfirst).andThen hok fun form hform hlast => ?_
    have hid' := hid.grow hasked.toGrown
    have hevaluated : first.unit.Legible depth (form.getD id) := by
      rcases hcases with ⟨found, hvalue, hfound⟩ | ⟨-, _, _, _, herror, -⟩
      · cases hform.symm.trans hvalue
        cases form with
        | none => exact hid'
        | some evaluated =>
            exact (hsound.forms id _ hfound).legible (hconstants.grow hasked.toGrown) hid'
      · cases hform.symm.trans herror
    obtain ⟨second, hsecond, hsound₂, -, hasked₂, -⟩ :=
      typeOf_spec hsound hfits hevaluated.lt (inside_of_outside hout)
    simp only [hsecond] at hlast
    refine (typeOf_modest hsound hevaluated hsecond).andThen hlast fun type _ hlast => ?_
    obtain ⟨-, hlast⟩ := compareTypes_bind_eq_ok_iff.mp hlast
    split at hlast
    · exact denotedReturnType_modest hsound₂ (hevaluated.grow (hasked₂ hout).toGrown) hlast
    · cases hlast
      exact ⟨(Adds.refl _).mono (Nat.le_refl _) (Nat.zero_le _), nofun⟩
  exact ⟨hlast.toAdds.mono (by omega) (by omega), hlast.knows⟩

theorem checkBody_modest (h : u.Sound constants) (hid : u.Legible depth id) {expected : TypeId}
    {answer : Answer hash Unit} {d : Checker hash}
    (hok : c.checkBody u expected id = .ok (answer, d)) :
    answer.Modest u 0 0 := by
  obtain ⟨typed, scopes, htyped, -, rfl, rfl⟩ := checkBody_eq_ok_iff.mp hok
  have hmodest := typeOf_modest h hid htyped
  exact ⟨hmodest.toAdds, fun name pos herror =>
    hmodest.knows name pos (Except.map_eq_error_iff.mp herror)⟩

/-- The check of an item adds no more than its signature is deep. -/
theorem check_modest (h : u.Sound constants) (hfits : c.Fits constants)
    (hout : c.returnType = none) (hconstants : u.ConstantsLegible constants) {item : ItemId}
    {function : FunctionItem} (hitem : u.LegibleItem item function)
    (hsignature : u.Legible depth function.signature) {answer : Answer hash Unit} {d : Checker hash}
    (hok : c.check u item = .ok (answer, d)) : answer.Modest u depth depth := by
  simp only [check, checkIndex_bind_of_lt hitem.item.lt, hitem.item.item_eq] at hok
  rcases returnTypeOf_spec h hfits hout hsignature.lt with
    ⟨kind, hbreach, -⟩ | ⟨first, hfirst, hsound, hasked, -⟩
  · rw [hbreach] at hok
    cases hok
  · have hmodest := returnTypeOf_modest h hfits hout hconstants hsignature hfirst
    simp only [hfirst, Bind.bind, Except.bind] at hok
    split at hok
    · rename_i e herror
      cases hok
      refine ⟨hmodest.toAdds, fun name pos hname => ?_⟩
      cases hname
      exact hmodest.knows name pos herror
    · obtain ⟨inside, hbody⟩ := hitem.body
      have hlast := checkBody_modest hsound (hbody.grow hasked.toGrown) hok
      exact ⟨hmodest.toAdds.trans hlast.toAdds, hlast.knows⟩

/-! ## Types that errors tell of -/

theorem typeOfValue_knowsTypes {answer : Answer hash TypeId}
    (hok : c.typeOfValue u id = .ok answer) :
    answer.KnowsTypes := by
  unfold typeOfValue at hok
  split at hok
  · cases hok
    exact .of_ok _ _
  · split at hok
    · rename_i e hleaf
      obtain ⟨name, -, rfl⟩ := leafType_eq_error hleaf
      cases hok
      exact nofun
    · obtain ⟨v, -, rfl⟩ := Except.map_eq_ok_iff.mp hok
      exact .of_ok _ _

theorem typeReturns_knowsTypes {expected actual : TypeId} {value : ExprId} {returns : List ExprId}
    {answer : Answer hash TypeId} (hok : typeReturns u expected value actual returns = .ok answer) :
    answer.KnowsTypes := by
  induction returns generalizing u value actual with
  | nil =>
      cases hok
      exact .of_ok _ _
  | cons next rest ih =>
      rw [typeReturns] at hok
      obtain ⟨hindex, hok⟩ := compareTypes_bind_eq_ok_iff.mp hok
      split at hok
      · obtain ⟨v, -, hok⟩ := Except.bind_eq_ok_iff.mp hok
        exact ih hok
      · rename_i hdiffer
        cases hok
        rintro _ _ _ ⟨⟩
        exact knowsTypes_of_differ hindex hdiffer

theorem typeOf_knowsTypes {answer : Answer hash TypeId} (hok : c.typeOf u id = .ok answer) :
    answer.KnowsTypes := by
  unfold typeOf at hok
  obtain ⟨-, hok⟩ := checkIndex_bind_eq_ok_iff.mp hok
  split at hok
  · exact typeOfValue_knowsTypes hok
  · split at hok
    · cases hok
      exact nofun
    · obtain ⟨first, hfirst, hok⟩ := Except.bind_eq_ok_iff.mp hok
      exact (typeOfValue_knowsTypes hfirst).andThen hok fun _ _ => typeReturns_knowsTypes

theorem denotationError_knowsTypes (h : u.Sound constants) (hfits : c.Fits constants)
    (hout : c.returnType = none) (hid : id.index < u.exprs.size) {answer : Answer hash TypeId}
    (hok : c.denotationError u id = .ok answer) : answer.KnowsTypes := by
  unfold denotationError at hok
  obtain ⟨first, hfirst, hok⟩ := Except.bind_eq_ok_iff.mp hok
  refine (typeOf_knowsTypes hfirst).andThen hok fun type htype hlast => ?_
  obtain ⟨first', hfirst', hsound, -, -, hcases⟩ :=
    typeOf_spec h hfits (h.target_lt hid) (inside_of_outside hout)
  obtain rfl := Except.ok.inj (hfirst.symm.trans hfirst')
  cases hlast
  rintro _ _ _ ⟨⟩
  rcases hcases with ⟨found, hok, hfound, -⟩ | ⟨e, herror⟩
  · cases htype.symm.trans hok
    exact ⟨(hsound.baseTypes .type).lt, typed_lt hsound (hsound.typed _ _ hfound)⟩
  · cases htype.symm.trans herror

theorem denotedReturnType_knowsTypes (h : u.Sound constants) (hfits : c.Fits constants)
    (hout : c.returnType = none) (hid : id.index < u.exprs.size) {answer : Answer hash TypeId}
    (hok : c.denotedReturnType u id = .ok answer) : answer.KnowsTypes := by
  obtain ⟨type?, v, hv, hsound, hasked, -⟩ := denotedType_spec h hid
  unfold denotedReturnType at hok
  simp only [hv, Bind.bind, Except.bind] at hok
  cases type? with
  | none =>
      exact denotationError_knowsTypes hsound hfits hout
        (Nat.lt_of_lt_of_le hid hasked.exprs.size_le) hok
  | some type =>
      obtain ⟨-, hok⟩ := checkIndex_bind_eq_ok_iff.mp hok
      split at hok <;> cases hok
      exact .of_ok _ _

theorem returnTypeOf_knowsTypes (h : u.Sound constants) (hfits : c.Fits constants)
    (hout : c.returnType = none) (hid : id.index < u.exprs.size) {answer : Answer hash TypeId}
    (hok : c.returnTypeOf u id = .ok answer) : answer.KnowsTypes := by
  unfold returnTypeOf at hok
  obtain ⟨first, hfirst, hok⟩ := Except.bind_eq_ok_iff.mp hok
  have hknows : first.KnowsTypes := fun expected actual pos herror => by
    obtain ⟨-, name, -, heq⟩ := constantForm_eq_error hfirst herror
    cases heq
  refine hknows.andThen hok fun form hform hok => ?_
  obtain ⟨first', hfirst', hsound, hasked, hcases⟩ := constantForm_spec h hfits hid
  obtain rfl := Except.ok.inj (hfirst.symm.trans hfirst')
  have hevaluated : (form.getD id).index < first.unit.exprs.size := by
    rcases hcases with ⟨found, hvalue, hfound⟩ | ⟨-, _, _, _, herror, -⟩
    · cases hform.symm.trans hvalue
      exact hsound.evaluated_lt (Nat.lt_of_lt_of_le hid hasked.exprs.size_le) hfound
    · cases hform.symm.trans herror
  obtain ⟨second, hsecond, hok⟩ := Except.bind_eq_ok_iff.mp hok
  refine (typeOf_knowsTypes hsecond).andThen hok fun type _ hok => ?_
  obtain ⟨hindex, hok⟩ := compareTypes_bind_eq_ok_iff.mp hok
  split at hok
  · obtain ⟨second', hsecond', hsound₂, hqueried, -⟩ :=
      typeOf_spec hsound hfits hevaluated (inside_of_outside hout)
    obtain rfl := Except.ok.inj (hsecond.symm.trans hsecond')
    exact denotedReturnType_knowsTypes hsound₂ hfits hout
      (Nat.lt_of_lt_of_le hevaluated hqueried.exprs.size_le) hok
  · rename_i hdiffer
    cases hok
    rintro _ _ _ ⟨⟩
    exact (knowsTypes_of_differ hindex hdiffer).symm

/-- The types that the check of an item finds to be different are there. -/
theorem check_knowsTypes (h : u.Sound constants) (hfits : c.Fits constants)
    (hout : c.returnType = none) {item : ItemId} {answer : Answer hash Unit} {d : Checker hash}
    (hok : c.check u item = .ok (answer, d)) : answer.KnowsTypes := by
  unfold check at hok
  obtain ⟨hitem, hok⟩ := checkIndex_bind_eq_ok_iff.mp hok
  obtain ⟨first, hfirst, hok⟩ := Except.bind_eq_ok_iff.mp hok
  obtain ⟨hsignature, -⟩ := h.items item _ (holdsItem_item hitem)
  have hknows := returnTypeOf_knowsTypes h hfits hout hsignature hfirst
  split at hok
  · rename_i e herror
    cases hok
    rintro expected actual pos ⟨⟩
    exact hknows expected actual pos herror
  · obtain ⟨typed, scopes, htyped, -, rfl, rfl⟩ := checkBody_eq_ok_iff.mp hok
    exact fun expected actual pos herror =>
      typeOf_knowsTypes htyped expected actual pos (Except.map_eq_error_iff.mp herror)

end Checker

end FrontEnd
