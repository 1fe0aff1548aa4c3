import FrontEnd.Proofs.Typing.Items

/-! # Questions that are asked again

A value that was answered is found the next time, in all later units, and an error left nothing to
be found. So whoever asks a question again gets the same answer, and nothing changes. -/

namespace FrontEnd

variable {hash : Hasher}

namespace CompilationUnit

variable {constants : Constants} {u v : CompilationUnit hash}

theorem Grown.expr_eq (hgrown : u.Grown v) {id : ExprId} (hid : id.index < u.exprs.size) :
    v.expr id = u.expr id :=
  (hgrown.holds (holds_expr hid)).expr_eq

theorem Grown.functionResult?_eq (hgrown : u.Grown v) {id : ExprId}
    (hid : id.index < u.exprs.size) : v.functionResult? id = u.functionResult? id := by
  rw [CompilationUnit.functionResult?, hgrown.expr_eq hid, CompilationUnit.functionResult?]

/-- The result of a function type expression, or else the expression itself. -/
theorem Sound.target_lt (h : u.Sound constants) {id : ExprId} (hid : id.index < u.exprs.size) :
    ((u.functionResult? id).getD id).index < u.exprs.size := by
  cases hresult : u.functionResult? id with
  | none => exact hid
  | some result =>
      obtain ⟨pos, hholds⟩ := functionResult?_eq_some_iff.mp hresult
      exact Nat.lt_trans (h.exprsDescend id result (child?_of_holds hholds)) hid

/-- An expression that was evaluated is its constant form, or itself if it has none. -/
theorem Sound.evaluated_lt (h : u.Sound constants) {id : ExprId} (hid : id.index < u.exprs.size)
    {form : Option ExprId} (hform : (u.findingsOf id).constantForm = some form) :
    (form.getD id).index < u.exprs.size := by
  cases form with
  | none => exact hid
  | some evaluated => exact Checker.form_lt h.evaluable (h.forms id _ hform)

/-- Types that were there are equal in a later unit exactly if they were. -/
theorem Grown.sameType_eq (hgrown : u.Grown v) (hu : u.TypesDescend) (hv : v.TypesDescend)
    {a b : TypeId} (ha : a.index < u.types.size) (hb : b.index < u.types.size) :
    v.sameType a b = u.sameType a b := by
  obtain ⟨d, k, hshape⟩ := hu.exists_shape ha
  obtain ⟨e, l, hshape'⟩ := hu.exists_shape hb
  rw [Bool.eq_iff_iff, hv.sameType_iff (hgrown.shape hshape) (hgrown.shape hshape'),
    hu.sameType_iff hshape hshape']

end CompilationUnit

namespace Answer

open CompilationUnit

variable {α β : Type} {constants : Constants} {u : CompilationUnit hash} {answer : Answer hash α}
  {ask : CompilationUnit hash → Except Breach (Answer hash α)}

/-- A question that was asked in a unit gives its answer again: the value in all later units, and
the error in the unit that it left. -/
structure Repeats (constants : Constants)
    (ask : CompilationUnit hash → Except Breach (Answer hash α)) (u : CompilationUnit hash)
    (answer : Answer hash α) : Prop where
  sound : answer.unit.Sound constants
  grown : u.Grown answer.unit
  value : ∀ value, answer.value = .ok value → ∀ w : CompilationUnit hash, w.Sound constants →
    answer.unit.Grown w → ask w = .ok ⟨.ok value, w⟩
  error : ∀ e, answer.value = .error e → ask answer.unit = .ok answer

theorem Repeats.again (h : answer.Repeats constants ask u) : ask answer.unit = .ok answer := by
  cases hvalue : answer.value with
  | ok value => rw [h.value value hvalue _ h.sound (.refl _), ← hvalue]
  | error e => exact h.error e hvalue

/-- Two questions one after the other give their answer again if both do. -/
theorem Repeats.andThen (h : answer.Repeats constants ask u) {last : Answer hash β}
    {next : α → CompilationUnit hash → Except Breach (Answer hash β)}
    (hok : answer.andThen next = .ok last)
    (hnext : ∀ value, answer.value = .ok value → next value answer.unit = .ok last →
      last.Repeats constants (next value) answer.unit) :
    last.Repeats constants (fun u => ask u >>= fun answer => answer.andThen next) u := by
  cases hvalue : answer.value with
  | ok value =>
      rw [andThen_of_ok hvalue] at hok
      have hrest := hnext value hvalue hok
      refine ⟨hrest.sound, h.grown.trans hrest.grown, fun found hfound w hw hlater => ?_,
        fun e herror => ?_⟩
      · rw [h.value value hvalue w hw (hrest.grown.trans hlater)]
        exact hrest.value found hfound w hw hlater
      · rw [h.value value hvalue _ hrest.sound hrest.grown]
        exact hrest.error e herror
  | error e =>
      rw [andThen_of_error hvalue] at hok
      cases hok
      refine ⟨h.sound, h.grown, nofun, fun _ _ => ?_⟩
      rw [h.error e hvalue]
      exact andThen_of_error hvalue

end Answer

namespace Checker

open CompilationUnit

variable {constants : Constants} {u v : CompilationUnit hash} {c : Checker hash} {id : ExprId}

/-! ## Answers that are found -/

theorem constantForm_of_found (hid : id.index < u.exprs.size) {form : Option ExprId}
    (hfound : (u.findingsOf id).constantForm = some form) :
    c.constantForm u id = .ok ⟨.ok form, u⟩ := by
  have hstop : pendingResult? u id = none := by simp [pendingResult?, hfound]
  rw [constantForm, checkIndex_bind_of_lt hid, ExprId.descend_of_none hstop]
  simp only [hfound, recordConstantForms]
  rfl

theorem denotedType_of_found (hid : id.index < u.exprs.size) {type : Option TypeId}
    (hfound : (u.findingsOf id).denotedType = some type) : denotedType u id = .ok (type, u) := by
  have hstop : pendingDenotation? u id = none := by simp [pendingDenotation?, hfound]
  rw [denotedType, checkIndex_bind_of_lt hid, ExprId.descend_of_none hstop]
  simp only [hfound, recordDenotedTypes]

theorem pendingValue?_of_found {type : TypeId} (hfound : (u.findingsOf id).type = some type) :
    pendingValue? u id = none := by
  simp [pendingValue?, hfound]

theorem typeOf_of_found (hid : id.index < u.exprs.size) {type : TypeId}
    (hfound : (u.findingsOf id).type = some type) : c.typeOf u id = .ok ⟨.ok type, u⟩ := by
  rw [typeOf_of_not_pending hid (pendingValue?_of_found hfound)]
  simp only [typeOfValue, hfound]

theorem constantForm_repeats (h : u.Sound constants) (hfits : c.Fits constants)
    (hid : id.index < u.exprs.size) {answer : Answer hash (Option ExprId)}
    (hok : c.constantForm u id = .ok answer) :
    answer.Repeats constants (c.constantForm · id) u := by
  obtain ⟨answer', hanswer, hsound, hasked, hcases⟩ := constantForm_spec h hfits hid
  obtain rfl : answer' = answer := Except.ok.inj (hanswer.symm.trans hok)
  refine ⟨hsound, hasked.toGrown, fun value hvalue w _ hgrown => ?_, fun e herror => ?_⟩
  · rcases hcases with ⟨form, hform, hfound⟩ | ⟨-, leaf, name, pos, herror, -⟩
    · obtain rfl : form = value := Except.ok.inj (hform.symm.trans hvalue)
      exact constantForm_of_found (Nat.lt_of_lt_of_le hid
        (hasked.toGrown.trans hgrown).exprs.size_le) ((hgrown.findings id).constantForm form hfound)
    · cases herror.symm.trans hvalue
  · rcases hcases with ⟨form, hform, -⟩ | ⟨hsame, -⟩
    · cases hform.symm.trans herror
    · rwa [hsame]

/-! ## Types of expressions -/

/-- Where the value of a return has another type than is expected, the returns inside it have
their types, and the question stops at the same one again. -/
theorem typeReturns_again (hdown : LeadsDown u.returnedValue?)
    {value top : ExprId} {outer : List ExprId}
    (htrail : Trail (pendingValue? u) value outer top) {actual expected : TypeId}
    (hfound : (u.findingsOf value).type = some actual) {answer : Answer hash TypeId}
    (hok : typeReturns u expected value actual outer = .ok answer) {e : TypingError}
    (herror : answer.value = .error e) :
    ∃ source found rest, Trail (pendingValue? answer.unit) source rest top ∧
      (answer.unit.findingsOf source).type = some found ∧
      typeReturns answer.unit expected source found rest = .ok answer := by
  induction outer generalizing u value actual with
  | nil =>
      cases hok
      cases herror
  | cons next rest ih =>
      have hstopped := hok
      rw [typeReturns] at hstopped
      obtain ⟨-, hstopped⟩ := compareTypes_bind_eq_ok_iff.mp hstopped
      split at hstopped
      · cases htrail with
        | out hnext hrest =>
            obtain ⟨v, hv, hlater⟩ := Except.bind_eq_ok_iff.mp hstopped
            have hrecorded : u.Recorded v next fun found =>
              { found with type := some BaseType.never.typeId } := recorded_record hv
            have hvalues : v.returnedValue? = u.returnedValue? := by
              funext id
              rw [returnedValue?, CompilationUnit.expr, hrecorded.exprs_eq]
              rfl
            have hrest' : Trail (pendingValue? v) next rest top :=
              pending?_trail hdown hrest (fun _ _ hinner => by rwa [hvalues]) fun id hid => by
                rw [hrecorded.findingsOf_eq, if_neg hid]
            exact ih (hvalues ▸ hdown) hrest' (by rw [hrecorded.findingsOf_eq, if_pos rfl]) hlater
      · cases hstopped
        exact ⟨value, actual, next :: rest, htrail, hfound, hok⟩

/-- Returns around a value are typed after it, against the return type that is expected. -/
theorem typeOf_of_trail (h : u.Sound constants) (hid : id.index < u.exprs.size)
    {value next : ExprId} {rest : List ExprId}
    (htrail : Trail (pendingValue? u) value (next :: rest) id)
    (hstop : pendingValue? u value = none) {expected : TypeId}
    (hreturn : c.returnType = some expected) :
    c.typeOf u id = c.typeOfValue u value >>= fun answer =>
      answer.andThen fun actual u => typeReturns u expected value actual (next :: rest) := by
  rw [typeOf_inside hreturn hid, ExprId.descend_of_trail (pendingValue?_leadsDown h) htrail,
    ExprId.descend_of_none hstop, List.append_nil]
  rfl

/-- An error about the type of an expression is found again. -/
theorem typeOf_again (h : u.Sound constants) (hfits : c.Fits constants)
    (hid : id.index < u.exprs.size) (hinside : Inside u id c) {answer : Answer hash TypeId}
    (hok : c.typeOf u id = .ok answer) {e : TypingError} (herror : answer.value = .error e) :
    c.typeOf answer.unit id = .ok answer := by
  -- nothing is left to do where the unit did not change
  have hunchanged : answer.unit = u → c.typeOf answer.unit id = .ok answer := fun hsame => by
    rw [hsame]
    exact hok
  obtain ⟨answer', hanswer, hsoundAfter, hqueried, -⟩ := typeOf_spec h hfits hid hinside
  obtain rfl : answer' = answer := Except.ok.inj (hanswer.symm.trans hok)
  have hidAfter := Nat.lt_of_lt_of_le hid hqueried.exprs.size_le
  have hdown := pendingValue?_leadsDown h
  obtain ⟨htrail, hstop⟩ := ExprId.descend_spec hdown (.stay id)
  generalize id.descend (pendingValue? u) [] = reached at htrail hstop
  obtain ⟨outer, value⟩ := reached
  dsimp only at htrail hstop
  obtain ⟨first, hfirst, hsound, hasked, hothers, hcases⟩ :=
    typeOfValue_spec h hfits (Nat.lt_of_le_of_lt (htrail.index_le hdown) hid) hstop
  cases outer with
  | nil =>
      cases htrail
      rw [typeOf_of_not_pending hid hstop] at hok
      obtain rfl : first = answer' := Except.ok.inj (hfirst.symm.trans hok)
      rcases hcases with ⟨type, hvalue, -⟩ | ⟨hsame, -⟩
      · cases hvalue.symm.trans herror
      · exact hunchanged hsame
  | cons next rest =>
      cases hreturn : c.returnType with
      | none =>
          refine hunchanged ?_
          rw [typeOf, checkIndex_bind_of_lt hid, ExprId.descend_of_trail hdown htrail,
            ExprId.descend_of_none hstop] at hok
          simp only [List.append_nil, hreturn] at hok
          cases hok
          rfl
      | some expected =>
          rw [typeOf_of_trail h hid htrail hstop hreturn, hfirst] at hok
          rcases hcases with ⟨actual, hactual, hfound⟩ | ⟨hsame, name, pos, hunknown, -⟩
          · simp only [Bind.bind, Except.bind, Answer.andThen_of_ok hactual] at hok
            obtain ⟨source, found, rest', hrest, hsource, hagain⟩ := typeReturns_again
              (returnedValue?_leadsDown hsound)
              (pendingValue?_trail h htrail hasked.toGrown fun other hother => by
                rw [hothers other hother]) hfound hok herror
            cases rest' with
            | nil =>
                have hvalue := congrArg Answer.value (Except.ok.inj hagain)
                cases hvalue.trans herror
            | cons next' rest' =>
                rw [typeOf_of_trail hsoundAfter hidAfter hrest (pendingValue?_of_found hsource)
                  hreturn]
                simp only [typeOfValue, hsource]
                exact hagain
          · simp only [Bind.bind, Except.bind, Answer.andThen_of_error hunknown] at hok
            cases hok
            exact hunchanged hsame

theorem typeOf_repeats (h : u.Sound constants) (hfits : c.Fits constants)
    (hid : id.index < u.exprs.size) (hinside : Inside u id c) {answer : Answer hash TypeId}
    (hok : c.typeOf u id = .ok answer) : answer.Repeats constants (c.typeOf · id) u := by
  obtain ⟨answer', hanswer, hsound, hqueried, -, hcases⟩ := typeOf_spec h hfits hid hinside
  obtain rfl : answer' = answer := Except.ok.inj (hanswer.symm.trans hok)
  refine ⟨hsound, hqueried.toGrown, fun value hvalue w _ hgrown => ?_, fun e herror =>
    typeOf_again h hfits hid hinside hok herror⟩
  rcases hcases with ⟨type, htype, hfound, -⟩ | ⟨e, herror⟩
  · obtain rfl : type = value := Except.ok.inj (htype.symm.trans hvalue)
    exact typeOf_of_found (Nat.lt_of_lt_of_le hid
      (hqueried.toGrown.trans hgrown).exprs.size_le) ((hgrown.findings id).type type hfound)
  · cases herror.symm.trans hvalue

/-! ## Signatures -/

theorem denotationError_repeats (h : u.Sound constants) (hfits : c.Fits constants)
    (hout : c.returnType = none) (hid : id.index < u.exprs.size) {answer : Answer hash TypeId}
    (hok : c.denotationError u id = .ok answer) :
    answer.Repeats constants (c.denotationError · id) u := by
  obtain ⟨answer', hanswer, hsound, hasked, e, herror⟩ := denotationError_spec h hfits hout hid
  obtain rfl : answer' = answer := Except.ok.inj (hanswer.symm.trans hok)
  refine ⟨hsound, hasked.toGrown, fun value hvalue => ?_, fun e' herror' => ?_⟩
  · cases herror.symm.trans hvalue
  · have htarget : ((u.functionResult? id).getD id).index < u.exprs.size := h.target_lt hid
    obtain ⟨first, hfirst, -⟩ := typeOf_spec h hfits htarget (inside_of_outside hout)
    unfold denotationError at hok ⊢
    rw [hasked.toGrown.functionResult?_eq hid]
    simp only [hfirst, Bind.bind, Except.bind] at hok
    refine ((typeOf_repeats h hfits htarget (inside_of_outside hout) hfirst).andThen hok
      fun actual hactual hlast => ?_).error e' herror'
    cases hlast
    exact ⟨hsound, .refl _, nofun, fun _ _ => rfl⟩

theorem denotedReturnType_repeats (h : u.Sound constants) (hfits : c.Fits constants)
    (hout : c.returnType = none) (hid : id.index < u.exprs.size) {answer : Answer hash TypeId}
    (hok : c.denotedReturnType u id = .ok answer) :
    answer.Repeats constants (c.denotedReturnType · id) u := by
  obtain ⟨type?, v, hv, hsound, hasked, hfound⟩ := denotedType_spec h hid
  have hagain : ∀ w : CompilationUnit hash, v.Grown w → denotedType w id = .ok (type?, w) :=
    fun w hgrown => denotedType_of_found
      (Nat.lt_of_lt_of_le hid (hasked.toGrown.trans hgrown).exprs.size_le)
      ((hgrown.findings id).denotedType type? hfound)
  unfold denotedReturnType at hok ⊢
  simp only [hv, Bind.bind, Except.bind] at hok
  cases type? with
  | none =>
      have hrest := denotationError_repeats hsound hfits hout
        (Nat.lt_of_lt_of_le hid hasked.exprs.size_le) hok
      refine ⟨hrest.sound, hasked.toGrown.trans hrest.grown, fun value hvalue w hw hlater => ?_,
        fun e herror => ?_⟩
      · rw [hagain w (hrest.grown.trans hlater)]
        exact hrest.value value hvalue w hw hlater
      · rw [hagain _ hrest.grown]
        exact hrest.error e herror
  | some type =>
      have hnode := holdsType_typeNode (denoted_lt hsound.denotable (hsound.denoted id _ hfound))
      obtain ⟨-, hok⟩ := checkIndex_bind_eq_ok_iff.mp hok
      split at hok
      · rename_i result hresult
        cases hok
        refine ⟨hsound, hasked.toGrown, fun value hvalue w hw hlater => ?_, nofun⟩
        cases hvalue
        rw [hagain w hlater]
        have hlast := hlater.holdsType hnode
        simp only [Bind.bind, Except.bind, checkIndex_of_lt hlast.lt, hlast.typeNode_eq, hresult]
        rfl
      · cases hok

theorem returnTypeOf_repeats (h : u.Sound constants) (hfits : c.Fits constants)
    (hout : c.returnType = none) (hid : id.index < u.exprs.size) {answer : Answer hash TypeId}
    (hok : c.returnTypeOf u id = .ok answer) :
    answer.Repeats constants (c.returnTypeOf · id) u := by
  obtain ⟨first, hfirst, hsound, hasked, hcases⟩ := constantForm_spec h hfits hid
  unfold returnTypeOf at hok ⊢
  simp only [hfirst, Bind.bind, Except.bind] at hok
  refine (constantForm_repeats h hfits hid hfirst).andThen hok fun form hform hok => ?_
  have hevaluated : (form.getD id).index < first.unit.exprs.size := by
    rcases hcases with ⟨found, hvalue, hfound⟩ | ⟨-, _, _, _, herror, -⟩
    · obtain rfl : form = found := Except.ok.inj (hform.symm.trans hvalue)
      exact hsound.evaluated_lt (Nat.lt_of_lt_of_le hid hasked.exprs.size_le) hfound
    · cases hform.symm.trans herror
  obtain ⟨second, hsecond, hsound₂, hqueried, -, htyped⟩ :=
    typeOf_spec hsound hfits hevaluated (inside_of_outside hout)
  simp only [hsecond, Bind.bind, Except.bind] at hok
  refine (typeOf_repeats hsound hfits hevaluated (inside_of_outside hout) hsecond).andThen hok
    fun type htype hok => ?_
  -- a later unit compares the same two types
  have hsame : ∀ w : CompilationUnit hash, w.Sound constants → second.unit.Grown w →
      w.compareTypes type BaseType.type.typeId =
        .ok (second.unit.sameType type BaseType.type.typeId) := by
    intro w hw hgrown
    rcases htyped with ⟨found, hvalue, hfound, -⟩ | ⟨e, herror⟩
    · obtain rfl : type = found := Except.ok.inj (htype.symm.trans hvalue)
      have hlt := typed_lt hsound₂ (hsound₂.typed _ _ hfound)
      have hbase := (hsound₂.baseTypes .type).lt
      rw [compareTypes_of_lt (Nat.lt_of_lt_of_le hlt hgrown.types.size_le)
        (Nat.lt_of_lt_of_le hbase hgrown.types.size_le),
        hgrown.sameType_eq hsound₂.typesDescend hw.typesDescend hlt hbase]
    · cases htype.symm.trans herror
  have hlast := hok
  obtain ⟨-, hok⟩ := compareTypes_bind_eq_ok_iff.mp hok
  split at hok
  · rename_i hequal
    have hrest := denotedReturnType_repeats hsound₂ hfits hout
      (Nat.lt_of_lt_of_le hevaluated hqueried.exprs.size_le) hok
    refine ⟨hrest.sound, hrest.grown, fun value hvalue w hw hlater => ?_, fun e herror => ?_⟩
    · simp only [hsame w hw (hrest.grown.trans hlater), hequal]
      exact hrest.value value hvalue w hw hlater
    · simp only [hsame _ hrest.sound hrest.grown, hequal]
      exact hrest.error e herror
  · cases hok
    exact ⟨hsound₂, .refl _, nofun, fun _ _ => hlast⟩

/-! ## Bodies and items -/

theorem checkBody_again (h : u.Sound constants) (hfits : c.Fits constants) {item : ItemId}
    {function : FunctionItem} (hitem : u.HoldsItem item function) {expected : TypeId}
    (hdeclared : u.declaredReturn? function = some expected) {answer : Answer hash Unit}
    {d : Checker hash} (hok : c.checkBody u expected function.body = .ok (answer, d)) :
    c.checkBody answer.unit expected function.body = .ok (answer, d) := by
  obtain ⟨-, hbody⟩ := h.items item function hitem
  have hinside : Inside u function.body ⟨c.scopes.push, some expected⟩ := by
    rintro _ ⟨⟩
    exact ⟨item, function, hitem, rfl, hdeclared⟩
  obtain ⟨typed, htyped, -⟩ := typeOf_spec h (hfits.inside expected) hbody hinside
  have hrepeats := typeOf_repeats h (hfits.inside expected) hbody hinside htyped
  obtain ⟨typed', scopes', htyped', hpop', rfl, rfl⟩ := checkBody_eq_ok_iff.mp hok
  obtain rfl := Except.ok.inj (htyped.symm.trans htyped')
  exact checkBody_eq_ok_iff.mpr ⟨typed, scopes', hrepeats.again, hpop', rfl, rfl⟩

/-- The check of an item is repeated where it ended. -/
theorem check_again (h : u.Sound constants) (hfits : c.Fits constants)
    (hout : c.returnType = none) {item : ItemId} {function : FunctionItem}
    (hitem : u.HoldsItem item function) {answer : Answer hash Unit} {d : Checker hash}
    (hok : c.check u item = .ok (answer, d)) : c.check answer.unit item = .ok (answer, d) := by
  obtain ⟨hsignature, -⟩ := h.items item function hitem
  unfold check at hok ⊢
  simp only [checkIndex_bind_of_lt hitem.lt, hitem.item_eq] at hok
  rcases returnTypeOf_spec h hfits hout hsignature with
    ⟨kind, hbreach, -⟩ | ⟨first, hfirst, hsound, hasked, hcases⟩
  · simp only [hbreach, Bind.bind, Except.bind] at hok
    cases hok
  have hrepeats := returnTypeOf_repeats h hfits hout hsignature hfirst
  simp only [hfirst, Bind.bind, Except.bind] at hok
  rcases hcases with ⟨form, type, expected, hvalue, hform, htype, hnode⟩ | ⟨e, herror, -⟩
  · simp only [hvalue] at hok
    have hdeclared := declaredReturn?_eq_some_iff.mpr ⟨form, type, hform, htype, hnode⟩
    obtain ⟨last, d', hlast, hsound', hqueried, -⟩ :=
      checkBody_spec hsound hfits (hasked.holdsItem hitem) hdeclared
    obtain ⟨rfl, rfl⟩ := Prod.mk.inj (Except.ok.inj (hlast.symm.trans hok))
    have hgrown := hasked.toGrown.trans hqueried.toGrown
    have hlater := hgrown.holdsItem hitem
    simp only [checkIndex_of_lt hlater.lt, hlater.item_eq,
      hrepeats.value expected hvalue _ hsound' hqueried.toGrown, Bind.bind, Except.bind]
    exact checkBody_again hsound hfits (hasked.holdsItem hitem) hdeclared hok
  · simp only [herror] at hok
    cases hok
    have hlater := hasked.toGrown.holdsItem hitem
    simp only [checkIndex_of_lt hlater.lt, hlater.item_eq, hrepeats.error e herror, herror,
      Bind.bind, Except.bind]
    rfl

end Checker

end FrontEnd
