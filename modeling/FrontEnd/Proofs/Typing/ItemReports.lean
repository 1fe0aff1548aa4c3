import FrontEnd.Proofs.Typing.Reports

/-! # What the checks of items report

What is said about an item follows from the report on its signature and that on its body. It changes
only with the returns in the item, and the check of an item finds types for no other returns. -/

namespace FrontEnd

open CompilationUnit

variable {hash : Hasher} {constants : Constants} {u v : CompilationUnit hash} {c d : Checker hash}
  {id value body : ExprId} {function : FunctionItem} {depth : Nat} {kind : BaseType}

namespace CompilationUnit

theorem Shape.of_types_eq (htypes : v.types = u.types) {type : TypeId}
    (h : u.Shape type depth kind) : v.Shape type depth kind := by
  induction h with
  | base hnode => exact .base (by rwa [HoldsType, htypes])
  | function hnode _ ih => exact .function (by rwa [HoldsType, htypes]) ih

/-! ## Parts of items -/

theorem FunctionsTo.partOf (h : u.FunctionsTo function.signature id) : u.PartOf function id := by
  obtain ⟨outer, htrail⟩ := h.trail
  exact ⟨_, outer, .inl rfl, htrail⟩

theorem ReturnsTo.partOf (h : u.ReturnsTo function.body id) : u.PartOf function id := by
  obtain ⟨outer, htrail⟩ := h
  refine ⟨_, outer, .inr rfl, htrail.congr fun next _ inner hinner => ?_⟩
  obtain ⟨pos, hnext⟩ := returnedValue?_eq_some_iff.mp hinner
  exact child?_of_holds hnext

/-- The same returns of a function have their types in two units. -/
def SameReturns (u v : CompilationUnit hash) (function : FunctionItem) : Prop :=
  ∀ id value pos, u.PartOf function id → u.Holds id (.return_ value) pos →
    (v.findingsOf id).type.isSome = (u.findingsOf id).type.isSome

/-- No return is part of both of two functions. -/
def ReturnsApart (u : CompilationUnit hash) (f g : FunctionItem) : Prop :=
  ∀ id value pos, u.Holds id (.return_ value) pos → u.PartOf f id → ¬ u.PartOf g id

theorem Grown.returnedValue?_eq (hgrown : u.Grown v) (hid : id.index < u.exprs.size) :
    v.returnedValue? id = u.returnedValue? id := by
  rw [CompilationUnit.returnedValue?, hgrown.expr_eq hid, CompilationUnit.returnedValue?]

theorem functionsTo_target (u : CompilationUnit hash) (id : ExprId) :
    u.FunctionsTo id ((u.functionResult? id).getD id) := by
  cases hresult : u.functionResult? id with
  | none => exact ⟨[], .stay id⟩
  | some result => exact ⟨[id], .out hresult (.stay id)⟩

end CompilationUnit

namespace Checker

/-! ## Bodies -/

variable {expected : Nat × BaseType} {actual : BaseType} {returns : List ExprId}

theorem returnsReport_congr (hvalue : v.expr value = u.expr value)
    (hreturns : ∀ id ∈ returns, v.expr id = u.expr id) :
    v.returnsReport expected value actual returns =
      u.returnsReport expected value actual returns := by
  induction returns generalizing value actual with
  | nil => rfl
  | cons next rest ih =>
      obtain ⟨hnext, hrest⟩ := List.forall_mem_cons.mp hreturns
      rw [returnsReport, returnsReport, ih hnext hrest, hvalue]

/-- Returns are reported up to the first whose value has another type than is expected. -/
theorem typeReturns_report (hdescend : u.TypesDescend)
    (hbase : ∀ kind : BaseType, u.HoldsType kind.typeId (.base kind)) {type : TypeId}
    (hshape : u.Shape type depth kind) {answer : Answer hash TypeId}
    (hok : typeReturns u type value actual.typeId returns = .ok answer) :
    Answer.spelled ⟨answer.value.map fun _ => (), answer.unit⟩ =
      u.returnsReport (depth, kind) value actual returns := by
  induction returns generalizing u value actual with
  | nil =>
      cases hok
      rfl
  | cons next rest ih =>
      have hactual : u.Shape actual.typeId 0 actual := .base (hbase actual)
      have hsame := hdescend.sameType_iff hshape hactual
      obtain ⟨-, hok⟩ := compareTypes_bind_eq_ok_iff.mp hok
      rw [returnsReport]
      by_cases hequal : (depth, kind) = (0, actual)
      · rw [if_pos (hsame.mpr (Prod.mk.inj hequal))] at hok
        rw [if_pos hequal]
        obtain ⟨w, hw, hok⟩ := Except.bind_eq_ok_iff.mp hok
        have hrecorded := recorded_record hw
        have hexpr : ∀ id, w.expr id = u.expr id := fun id => by
          rw [expr, hrecorded.exprs_eq, expr]
        have hnode : ∀ {id node}, w.HoldsType id node ↔ u.HoldsType id node := by
          intro id node
          rw [HoldsType, hrecorded.types_eq, HoldsType]
        rw [ih (fun id result hholds => hdescend id result (hnode.mp hholds))
          (fun kind => hnode.mpr (hbase kind)) (hshape.of_types_eq hrecorded.types_eq) hok]
        exact returnsReport_congr (hexpr _) fun id _ => hexpr id
      · rw [if_neg fun hfound => hequal (Prod.ext (hsame.mp hfound).1 (hsame.mp hfound).2)] at hok
        rw [if_neg hequal]
        cases hok
        exact congrArg Except.error (spelled_mismatch hdescend hshape (hbase actual) _)

/-- The check of a body types the innermost value, and then the returns around it. -/
theorem checkBody_inside (h : u.Sound constants) (hfits : c.Fits constants) {type : TypeId}
    (hbody : body.index < u.exprs.size) {answer : Answer hash Unit}
    (hok : c.checkBody u type body = .ok (answer, d)) :
    ∃ first typed, typeOfValue ⟨c.scopes.push, some type⟩ u
        (body.descend (pendingValue? u) []).2 = .ok first ∧ u.Asked first.unit ∧
      (first.andThen fun actual v => typeReturns v type (body.descend (pendingValue? u) []).2 actual
        (body.descend (pendingValue? u) []).1) = .ok typed ∧
      answer = ⟨typed.value.map fun _ => (), typed.unit⟩ := by
  have hdown := pendingValue?_leadsDown h
  obtain ⟨htrail, hstop⟩ := ExprId.descend_spec hdown (.stay body)
  obtain ⟨first, hfirst, -, hasked, -⟩ := typeOfValue_spec h (hfits.inside type)
    (Nat.lt_of_le_of_lt (htrail.index_le hdown) hbody) hstop
  obtain ⟨typed, scopes, htyped, -, rfl, rfl⟩ := checkBody_eq_ok_iff.mp hok
  rw [typeOf_inside rfl hbody, hfirst] at htyped
  exact ⟨first, typed, hfirst, hasked, htyped, rfl⟩

/-- What the check of a body says about it is its report. -/
theorem checkBody_report (h : u.Sound constants) (hexact : c.Exact constants) {type : TypeId}
    (hshape : u.Shape type depth kind) (hbody : body.index < u.exprs.size)
    {answer : Answer hash Unit} (hok : c.checkBody u type body = .ok (answer, d)) :
    answer.spelled = u.bodyReport constants (depth, kind) body := by
  have hdown := pendingValue?_leadsDown h
  obtain ⟨htrail, hstop⟩ := ExprId.descend_spec hdown (.stay body)
  obtain ⟨first, typed, hfirst, hasked, htyped, rfl⟩ := checkBody_inside h hexact.fits hbody hok
  unfold bodyReport
  generalize body.descend (pendingValue? u) [] = reached at htrail hstop hfirst htyped ⊢
  obtain ⟨returns, value⟩ := reached
  dsimp only at htrail hstop hfirst htyped ⊢
  have hvalue := Nat.lt_of_le_of_lt (htrail.index_le hdown) hbody
  obtain ⟨first', hfirst', hsound, -, hspelled⟩ :=
    typeOfValue_kind h (hexact.inside type) hvalue hstop
  obtain rfl : first' = first := Except.ok.inj (hfirst'.symm.trans hfirst)
  have hreturns : ∀ id ∈ returns, first'.unit.expr id = u.expr id := fun id hid =>
    hasked.toGrown.expr_eq (Nat.lt_of_le_of_lt (htrail.index_of_mem hdown hid).2 hbody)
  cases hkind : u.kindOf constants value with
  | error e =>
      rw [hkind] at hspelled
      obtain ⟨found, herror, hfound⟩ := Answer.spelled_eq_error_iff.mp hspelled
      rw [Answer.andThen_of_error herror] at htyped
      cases htyped
      exact congrArg Except.error hfound
  | ok actual =>
      rw [hkind] at hspelled
      rw [Answer.andThen_of_ok (Answer.spelled_eq_ok_iff.mp hspelled)] at htyped
      rw [typeReturns_report hsound.typesDescend hsound.baseTypes (hasked.shape hshape) htyped]
      exact returnsReport_congr (hasked.toGrown.expr_eq hvalue) hreturns

/-! ## Reports change only with returns -/

/-- The report on a body changes only with the types of the returns in it. -/
theorem bodyReport_congr (hgrown : u.Grown v) (h : u.Sound constants)
    (hbody : body.index < u.exprs.size)
    (hsame : ∀ id value pos, u.ReturnsTo body id → u.Holds id (.return_ value) pos →
      (v.findingsOf id).type.isSome = (u.findingsOf id).type.isSome) :
    v.bodyReport constants expected body = u.bodyReport constants expected body := by
  have hdown := pendingValue?_leadsDown h
  have hpending : ∀ id outer, Trail (pendingValue? u) id outer body →
      pendingValue? v id = pendingValue? u id := by
    intro id outer htrail
    have hid := Nat.lt_of_le_of_lt (htrail.index_le hdown) hbody
    rw [pendingValue?, pendingValue?, hgrown.returnedValue?_eq hid]
    cases hvalue : u.returnedValue? id with
    | none => simp
    | some value =>
        obtain ⟨pos, hholds⟩ := returnedValue?_eq_some_iff.mp hvalue
        rw [hsame id value pos (returnsTo_of_pending htrail) hholds]
  unfold bodyReport
  rw [ExprId.descend_congr (.stay body) hpending]
  obtain ⟨htrail, -⟩ := ExprId.descend_spec hdown (.stay body)
  generalize body.descend (pendingValue? u) [] = reached at htrail ⊢
  obtain ⟨returns, value⟩ := reached
  dsimp only at htrail ⊢
  have hvalue := Nat.lt_of_le_of_lt (htrail.index_le hdown) hbody
  rw [kindOf_grown hgrown hvalue fun inner pos =>
    hsame value inner pos (returnsTo_of_pending htrail)]
  congr 1
  funext actual
  exact returnsReport_congr (hgrown.expr_eq hvalue) fun id hid => hgrown.expr_eq
    (Nat.lt_of_le_of_lt (htrail.index_of_mem hdown hid).2 hbody)

theorem signatureReport_congr (hgrown : u.Grown v) (h : u.Sound constants)
    (hid : id.index < u.exprs.size)
    (hsame : ∀ leaf value pos, u.FunctionsTo id leaf → u.Holds leaf (.return_ value) pos →
      (v.findingsOf leaf).type.isSome = (u.findingsOf leaf).type.isSome) :
    v.signatureReport constants id = u.signatureReport constants id := by
  have hdown := h.functionResult?_leadsDown
  obtain ⟨htrail, -⟩ := ExprId.descend_spec hdown (.stay id)
  have hleaf := Nat.lt_of_le_of_lt (htrail.index_le hdown) hid
  have htarget := h.target_lt hid
  unfold signatureReport
  rw [ExprId.descend_congr (.stay id) fun inner outer hinner =>
    hgrown.functionResult?_eq (Nat.lt_of_le_of_lt (hinner.index_le hdown) hid)]
  generalize id.descend u.functionResult? [] = reached at hleaf ⊢
  obtain ⟨outer, leaf⟩ := reached
  dsimp only at hleaf ⊢
  rw [leafReport, leafReport, notAType, notAType, hgrown.functionResult?_eq hid,
    hgrown.expr_eq hleaf, hgrown.expr_eq htarget, kindOf_grown hgrown htarget
    fun value pos => hsame _ value pos (u.functionsTo_target id)]

/-- The report on an item changes only with the types of the returns in it. -/
theorem itemReport_congr (hgrown : u.Grown v) (h : u.Sound constants)
    (hsignature : function.signature.index < u.exprs.size)
    (hbody : function.body.index < u.exprs.size) (hsame : u.SameReturns v function) :
    v.itemReport constants function = u.itemReport constants function := by
  unfold itemReport
  rw [signatureReport_congr hgrown h hsignature fun leaf value pos hleaf =>
    hsame leaf value pos hleaf.partOf]
  congr 1
  funext declared
  congr 1
  funext expected
  exact bodyReport_congr hgrown h hbody fun leaf value pos hleaf =>
    hsame leaf value pos hleaf.partOf

/-! ## Items -/

/-- What the check of an item says about it is its report. -/
theorem check_report (h : u.Sound constants) (hexact : c.Exact constants)
    (hout : c.returnType = none) {item : ItemId}
    (hitem : u.HoldsItem item function) :
    (c.check u item).map (fun checked => checked.1.spelled) = u.itemReport constants function := by
  obtain ⟨hsignature, hbody⟩ := h.items item function hitem
  have hagrees := returnTypeOf_agrees h hexact hout hsignature
  have hspec := returnTypeOf_spec h hexact.fits hout hsignature
  rw [check, checkIndex_bind_of_lt hitem.lt, hitem.item_eq]
  dsimp only
  unfold itemReport
  generalize c.returnTypeOf u function.signature = outcome at hagrees hspec ⊢
  generalize u.signatureReport constants function.signature = report at hagrees ⊢
  cases hagrees with
  | breach hbreach =>
      rw [hbreach]
      rfl
  | fails hanswer hspelled =>
      obtain ⟨found, hvalue, hfound⟩ := Answer.spelled_eq_error_iff.mp hspelled
      rw [hanswer]
      simp only [Bind.bind, Except.bind, hvalue]
      exact congrArg (fun e => Except.ok (Except.error e)) hfound
  | @declares answer result depth kind hanswer hvalue hshape =>
      obtain ⟨kind, hbreach, -⟩ | ⟨answer', hanswer', hsound, hasked, hcases⟩ := hspec
      · cases hbreach.symm.trans hanswer
      obtain rfl : answer' = answer := Except.ok.inj (hanswer'.symm.trans hanswer)
      obtain ⟨form, type, found, hfound, hform, htype, hnode⟩ | ⟨e, herror, -⟩ := hcases
      · obtain rfl : found = result := Except.ok.inj (hfound.symm.trans hvalue)
        have hdeclared := declaredReturn?_eq_some_iff.mpr ⟨form, type, hform, htype, hnode⟩
        obtain ⟨last, d, hlast, -⟩ :=
          checkBody_spec hsound hexact.fits (hasked.holdsItem hitem) hdeclared
        have hreport := checkBody_report hsound hexact hshape
          (Nat.lt_of_lt_of_le hbody hasked.exprs.size_le) hlast
        rw [bodyReport_congr hasked.toGrown h hbody fun id value pos _ hholds => by
          rw [hasked.returnType_eq id value pos hholds]] at hreport
        rw [hanswer]
        simp only [Bind.bind, Except.bind, hvalue, hlast]
        exact congrArg Except.ok hreport
      · cases herror.symm.trans hvalue

/-! ## What checks leave as it was -/

/-- Only the returns that are to be typed are. -/
theorem typeReturns_others {expected actual : TypeId} {value : ExprId} {returns : List ExprId}
    {answer : Answer hash TypeId} (hid : id ∉ returns)
    (hok : typeReturns u expected value actual returns = .ok answer) :
    answer.unit.findingsOf id = u.findingsOf id := by
  induction returns generalizing u value actual with
  | nil =>
      cases hok
      rfl
  | cons next rest ih =>
      rw [List.mem_cons, not_or] at hid
      obtain ⟨-, hok⟩ := compareTypes_bind_eq_ok_iff.mp hok
      split at hok
      · obtain ⟨w, hw, hok⟩ := Except.bind_eq_ok_iff.mp hok
        have hsame := ((recorded_record hw).findingsOf_eq id).trans (if_neg hid.1)
        exact (ih hid.2 hok).trans hsame
      · cases hok
        rfl

/-- The check of a body finds types only for the returns that it is made of. -/
theorem checkBody_others (h : u.Sound constants) (hfits : c.Fits constants) {type : TypeId}
    (hbody : body.index < u.exprs.size) {answer : Answer hash Unit}
    (hok : c.checkBody u type body = .ok (answer, d)) {pos : Position}
    (hholds : u.Holds id (.return_ value) pos) (hreturns : ¬ u.ReturnsTo body id) :
    (answer.unit.findingsOf id).type = (u.findingsOf id).type := by
  obtain ⟨htrail, -⟩ := ExprId.descend_spec (pendingValue?_leadsDown h) (.stay body)
  obtain ⟨first, typed, -, hasked, htyped, rfl⟩ := checkBody_inside h hfits hbody hok
  have hfound := hasked.returnType_eq id value pos hholds
  cases hvalue : first.value with
  | error e =>
      rw [Answer.andThen_of_error hvalue] at htyped
      cases htyped
      exact hfound
  | ok actual =>
      rw [Answer.andThen_of_ok hvalue] at htyped
      have hnot : id ∉ (body.descend (pendingValue? u) []).1 := fun hid => by
        obtain ⟨rest, hrest⟩ := htrail.exists_of_mem hid
        exact hreturns (returnsTo_of_pending hrest)
      exact (congrArg Findings.type (typeReturns_others hnot htyped)).trans hfound

/-- A check finds types only for the returns in its item. -/
theorem check_others (h : u.Sound constants) (hfits : c.Fits constants)
    (hout : c.returnType = none) {item : ItemId}
    (hitem : u.HoldsItem item function) {answer : Answer hash Unit}
    (hok : c.check u item = .ok (answer, d)) {pos : Position}
    (hholds : u.Holds id (.return_ value) pos) (hpart : ¬ u.PartOf function id) :
    (answer.unit.findingsOf id).type = (u.findingsOf id).type := by
  obtain ⟨hsignature, hbody⟩ := h.items item function hitem
  rw [check, checkIndex_bind_of_lt hitem.lt, hitem.item_eq] at hok
  dsimp only at hok
  rcases returnTypeOf_spec h hfits hout hsignature with
    ⟨kind, hbreach, -⟩ | ⟨first, hfirst, hsound, hasked, -⟩
  · simp only [hbreach, Bind.bind, Except.bind] at hok
    cases hok
  have hfound := hasked.returnType_eq id value pos hholds
  simp only [hfirst, Bind.bind, Except.bind] at hok
  cases hvalue : first.value with
  | error e =>
      simp only [hvalue] at hok
      cases hok
      exact hfound
  | ok expected =>
      simp only [hvalue] at hok
      rw [checkBody_others hsound hfits (Nat.lt_of_lt_of_le hbody hasked.exprs.size_le) hok
        (hasked.holds hholds) fun hreturns => hpart ?_, hfound]
      exact (hasked.toGrown.partOf_iff hsound.exprsDescend hsignature hbody).mp hreturns.partOf

end Checker

end FrontEnd
