import FrontEnd.Proofs.Scopes
import FrontEnd.Proofs.Typing.Sound

/-! # Constant forms

The question for a constant form reads and records constant forms and adds expressions. It is
answered in every unit whose constant forms are true, whatever else was found there. -/

namespace FrontEnd

variable {hash : Hasher}

namespace CompilationUnit

variable {u : CompilationUnit hash}

theorem functionResult?_eq_some_iff {id result : ExprId} :
    u.functionResult? id = some result ↔ ∃ pos, u.Holds id (.functionType result) pos := by
  constructor
  · intro h
    have hchild : u.child? id = some result := by
      unfold functionResult? at h
      split at h
      · rename_i hexpr
        cases h
        rw [child?_eq, hexpr]
        rfl
      · cases h
    obtain ⟨expr, pos, hid, hinner⟩ := exists_holds_of_child? hchild
    rw [functionResult?, hid.expr_eq] at h
    cases expr <;> simp_all
    exact ⟨pos, hid⟩
  · rintro ⟨pos, hid⟩
    simp [functionResult?, hid.expr_eq]

theorem Grown.functionResult? {v : CompilationUnit hash} (hgrown : u.Grown v) {id result : ExprId}
    (h : u.functionResult? id = some result) : v.functionResult? id = some result := by
  obtain ⟨pos, hid⟩ := functionResult?_eq_some_iff.mp h
  exact functionResult?_eq_some_iff.mpr ⟨pos, hgrown.holds hid⟩

theorem functionResult?_leadsDown (hdown : LeadsDown u.child?) : LeadsDown u.functionResult? := by
  intro id inner hinner
  obtain ⟨pos, hid⟩ := functionResult?_eq_some_iff.mp hinner
  exact hdown id inner (child?_of_holds hid)

/-- An expression is function type expressions around another one. -/
def FunctionsTo (u : CompilationUnit hash) (id leaf : ExprId) : Prop :=
  ∃ outer, Trail u.functionResult? leaf outer id

theorem FunctionsTo.trail {id leaf : ExprId} (h : u.FunctionsTo id leaf) :
    ∃ outer, Trail u.child? leaf outer id := by
  obtain ⟨outer, htrail⟩ := h
  refine ⟨outer, htrail.congr fun next _ inner hinner => ?_⟩
  obtain ⟨pos, hnext⟩ := functionResult?_eq_some_iff.mp hinner
  exact child?_of_holds hnext

/-! ## Units in which constants can be evaluated -/

variable {constants : Constants} {v w : CompilationUnit hash}

/-- Nodes descend, and the constant forms that were found are true. -/
structure Evaluable (constants : Constants) (u : CompilationUnit hash) : Prop where
  findings_size : u.findings.size = u.exprs.size
  exprsDescend : LeadsDown u.child?
  values : ∀ name binding, constants name = some binding → binding.value.index < u.exprs.size
  forms : ∀ id form, (u.findingsOf id).constantForm = some form → u.Form constants id form

theorem Sound.evaluable (h : u.Sound constants) : u.Evaluable constants where
  findings_size := h.findings_size
  exprsDescend := h.exprsDescend
  values name binding hname := (h.constantsHold name binding hname).1
  forms := h.forms

theorem Evaluable.functionResult?_leadsDown (h : u.Evaluable constants) :
    LeadsDown u.functionResult? :=
  CompilationUnit.functionResult?_leadsDown h.exprsDescend

theorem Evaluable.addExpr (h : u.Evaluable constants) {expr : Expr}
    (hchild : ∀ child, expr.child? = some child → child.index < u.exprs.size) (pos : Position) :
    (u.addExpr expr pos).2.Evaluable constants := by
  have hgrown := (queried_addExpr u expr pos).toGrown
  refine ⟨?_, leadsDown_addExpr h.exprsDescend hchild pos, fun name binding hname => ?_,
    fun id form hform => ?_⟩
  · simp [CompilationUnit.addExpr, h.findings_size]
  · exact Nat.lt_of_lt_of_le (h.values name binding hname) hgrown.exprs.size_le
  · rw [findingsOf_addExpr] at hform
    exact (h.forms id form hform).mono hgrown (.refl constants)

/-- An evaluation adds expressions and records constant forms. -/
structure Evaluates (u v : CompilationUnit hash) : Prop extends Queried u v where
  types_eq : v.types = u.types
  type_eq : ∀ id, (v.findingsOf id).type = (u.findingsOf id).type
  denotedType_eq : ∀ id, (v.findingsOf id).denotedType = (u.findingsOf id).denotedType

theorem Evaluates.refl (u : CompilationUnit hash) : u.Evaluates u :=
  ⟨.refl u, rfl, fun _ => rfl, fun _ => rfl⟩

theorem Evaluates.trans (huv : u.Evaluates v) (hvw : v.Evaluates w) : u.Evaluates w where
  toQueried := huv.toQueried.trans hvw.toQueried
  types_eq := hvw.types_eq.trans huv.types_eq
  type_eq id := (hvw.type_eq id).trans (huv.type_eq id)
  denotedType_eq id := (hvw.denotedType_eq id).trans (huv.denotedType_eq id)

theorem Evaluates.asked (h : u.Evaluates v) : u.Asked v :=
  ⟨h.toQueried, fun id _ _ _ => h.type_eq id⟩

theorem evaluates_addExpr (u : CompilationUnit hash) (expr : Expr) (pos : Position) :
    u.Evaluates (u.addExpr expr pos).2 where
  toQueried := queried_addExpr u expr pos
  types_eq := rfl
  type_eq id := by rw [findingsOf_addExpr]
  denotedType_eq id := by rw [findingsOf_addExpr]

theorem Evaluable.recordConstantForm (h : u.Evaluable constants) {id : ExprId}
    (hid : id.index < u.exprs.size) (hnone : (u.findingsOf id).constantForm = none)
    {form : Option ExprId} (hform : u.Form constants id form) :
    ∃ v, u.record .constantForm id form = .ok v ∧ v.Evaluable constants ∧ u.Evaluates v ∧
      u.Recorded v id fun found => { found with constantForm := some form } := by
  obtain ⟨v, hv⟩ := exists_record .constantForm (h.findings_size ▸ hid) hnone form
  have hrecorded : u.Recorded v id fun found => { found with constantForm := some form } :=
    recorded_record hv
  refine ⟨v, hv, ⟨?_, ?_, ?_, fun other found hfound => ?_⟩,
    ⟨queried_record (by decide) hv, hrecorded.types_eq, fun other => ?_, fun other => ?_⟩,
      hrecorded⟩
  · rw [hrecorded.findings_size, hrecorded.exprs_eq, h.findings_size]
  · intro other inner hinner
    rw [child?, expr, hrecorded.exprs_eq] at hinner
    exact h.exprsDescend other inner hinner
  · rw [hrecorded.exprs_eq]
    exact h.values
  · rw [hrecorded.findingsOf_eq] at hfound
    refine Form.mono hrecorded.toGrown (.refl constants) ?_
    split at hfound
    · rename_i heq
      cases hfound
      exact heq ▸ hform
    · exact h.forms other found hfound
  · rw [hrecorded.findingsOf_eq]
    split
    · rename_i heq
      rw [heq]
    · rfl
  · rw [hrecorded.findingsOf_eq]
    split
    · rename_i heq
      rw [heq]
    · rfl

/-- A unit stays sound if its constant forms stay true. -/
theorem Sound.evaluated (h : u.Sound constants) (hevaluates : u.Evaluates v)
    (hv : v.Evaluable constants) : v.Sound constants where
  names := hevaluates.names_eq ▸ h.names
  findings_size := hv.findings_size
  baseTypes kind := hevaluates.holdsType (h.baseTypes kind)
  baseExprs kind := hevaluates.holds (h.baseExprs kind)
  typesDescend := by
    intro id result hid
    rw [HoldsType, hevaluates.types_eq] at hid
    exact h.typesDescend id result hid
  exprsDescend := hv.exprsDescend
  items := h.items.grow hevaluates.toGrown hevaluates.items_eq
  constantsHold name binding hname := by
    rw [hevaluates.types_eq]
    exact ⟨hv.values name binding hname, (h.constantsHold name binding hname).2⟩
  forms := hv.forms
  denoted id type htype :=
    hevaluates.toGrown.denotes (h.denoted id type (hevaluates.denotedType_eq id ▸ htype))
  typed id type htype :=
    (h.typed id type (hevaluates.type_eq id ▸ htype)).mono hevaluates.toGrown (.refl constants)

end CompilationUnit

namespace Checker

open CompilationUnit

variable {constants : Constants} {u v : CompilationUnit hash} {c : Checker hash} {id : ExprId}

/-- A checker outside of functions, with no other constants in scope than some. -/
structure Fits (constants : Constants) (c : Checker hash) : Prop where
  scopes : c.scopes.WellFormed
  within : ∀ name binding, c.scopes.lookup name = some binding → constants name = some binding

/-- In the scope of a body no constants are added. -/
theorem Fits.inside (hfits : c.Fits constants) (expected : TypeId) :
    Fits constants ⟨c.scopes.push, some expected⟩ where
  scopes := hfits.scopes.push
  within name binding hname :=
    hfits.within name binding (by rwa [hfits.scopes.lookup_push] at hname)

theorem lookup_eq_ok_iff {name : Name} {pos : Position} {binding : ConstantBinding} :
    c.lookup name pos = .ok binding ↔ c.scopes.lookup name = some binding := by
  unfold lookup
  split
  · rename_i hfound
    simp [hfound]
  · rename_i hnone
    simp [hnone]

theorem lookup_eq_error_iff {name : Name} {pos : Position} {e : TypingError} :
    c.lookup name pos = .error e ↔
      c.scopes.lookup name = none ∧ e = .unknownName name pos := by
  unfold lookup
  split
  · rename_i hfound
    simp [hfound]
  · rename_i hnone
    simp [hnone, eq_comm]

/-! ## Pending expressions -/

/-- The expression inside of one about which something is still to be found. -/
def pending? {σ : Type} (slot : Findings → Option σ) (inner? : ExprId → Option ExprId)
    (u : CompilationUnit hash) (id : ExprId) : Option ExprId :=
  if (slot (u.findingsOf id)).isSome then none else inner? id

variable {σ : Type} {slot : Findings → Option σ} {inner? other? : ExprId → Option ExprId}
  {leaf top : ExprId} {outer : List ExprId}

theorem pending?_eq_some_iff {inner : ExprId} : pending? slot inner? u id = some inner ↔
    slot (u.findingsOf id) = none ∧ inner? id = some inner := by
  unfold pending?
  cases slot (u.findingsOf id) <;> simp

theorem pending?_leadsDown (hdown : LeadsDown inner?) : LeadsDown (pending? slot inner? u) :=
  fun id inner hinner => hdown id inner (pending?_eq_some_iff.mp hinner).2

/-- What is found about the leaf of a trail leaves the other expressions pending. -/
theorem pending?_trail (hdown : LeadsDown inner?)
    (htrail : Trail (pending? slot inner? u) leaf outer top)
    (hkept : ∀ id inner, inner? id = some inner → other? id = some inner)
    (hothers : ∀ id, id ≠ leaf → slot (v.findingsOf id) = slot (u.findingsOf id)) :
    Trail (pending? slot other? v) leaf outer top := by
  refine htrail.congr_of_ne (pending?_leadsDown hdown) fun id hid inner hinner => ?_
  obtain ⟨hnone, hinner⟩ := pending?_eq_some_iff.mp hinner
  exact pending?_eq_some_iff.mpr ⟨(hothers id hid).trans hnone, hkept id inner hinner⟩

/-! ## Constant forms -/

theorem pendingResult?_eq (u : CompilationUnit hash) :
    pendingResult? u = pending? (fun found => found.constantForm) u.functionResult? u := rfl

theorem pendingResult?_eq_some_iff {result : ExprId} :
    pendingResult? u id = some result ↔ (u.findingsOf id).constantForm = none ∧
      ∃ pos, u.Holds id (.functionType result) pos := by
  rw [pendingResult?_eq, pending?_eq_some_iff, functionResult?_eq_some_iff]

theorem pendingResult?_leadsDown (h : u.Evaluable constants) : LeadsDown (pendingResult? u) :=
  pending?_leadsDown h.functionResult?_leadsDown

theorem pendingResult?_trail (h : u.Evaluable constants)
    (htrail : Trail (pendingResult? u) leaf outer top) (hgrown : u.Grown v)
    (hothers : ∀ id, id ≠ leaf →
      (v.findingsOf id).constantForm = (u.findingsOf id).constantForm) :
    Trail (pendingResult? v) leaf outer top :=
  pending?_trail h.functionResult?_leadsDown htrail (fun _ _ => hgrown.functionResult?) hothers

/-- A constant form is an expression. -/
theorem form_lt (h : u.Evaluable constants) {form : ExprId}
    (hform : u.Form constants id (some form)) : form.index < u.exprs.size := by
  cases hform with
  | literal hid => exact hid.lt
  | baseType hid => exact hid.lt
  | name _ hname => exact h.values _ _ hname
  | function _ _ hnew => exact hnew.lt

/-- The form of a function type expression, made from that of its result. -/
def formAround (u : CompilationUnit hash) (id : ExprId) :
    Option ExprId → Option ExprId × CompilationUnit hash
  | none => (none, u)
  | some result =>
    let added := u.addExpr (.functionType result) (u.expr id).pos
    (some added.1, added.2)

theorem recordConstantForms_cons (form : Option ExprId) (rest : List ExprId) :
    recordConstantForms u form (id :: rest) =
      match (formAround u id form).2.record .constantForm id (formAround u id form).1 with
      | .error breach => .error breach
      | .ok u' => recordConstantForms u' (formAround u id form).1 rest := by
  cases form <;> rfl

theorem formAround_spec (h : u.Evaluable constants) {next : ExprId} {pos : Position}
    (hnext : u.Holds next (.functionType id) pos) {form : Option ExprId}
    (hform : u.Form constants id form) :
    (formAround u next form).2.Evaluable constants ∧ u.Evaluates (formAround u next form).2 ∧
      (formAround u next form).2.Form constants next (formAround u next form).1 ∧
      ∀ id, (formAround u next form).2.findingsOf id = u.findingsOf id := by
  cases form with
  | none => exact ⟨h, .refl u, .formless hnext hform, fun _ => rfl⟩
  | some result =>
      have hadded := evaluates_addExpr u (.functionType result) (u.expr next).pos
      have hchild : ∀ child, (Expr.functionType result).child? = some child →
          child.index < u.exprs.size := by
        rintro child ⟨⟩
        exact form_lt h hform
      obtain rfl : (u.expr next).pos = pos := by rw [hnext.expr_eq]
      refine ⟨h.addExpr hchild _, hadded, ?_, findingsOf_addExpr _ _⟩
      exact .function (hadded.holds hnext) (hform.mono hadded.toGrown (.refl constants))
        (holds_addExpr u _ _)

theorem recordConstantForms_spec (h : u.Evaluable constants) {leaf top : ExprId}
    {outer : List ExprId} (htrail : Trail (pendingResult? u) leaf outer top) {form : Option ExprId}
    (hfound : (u.findingsOf leaf).constantForm = some form) :
    ∃ last v, recordConstantForms u form outer = .ok (last, v) ∧ v.Evaluable constants ∧
      u.Evaluates v ∧ (v.findingsOf top).constantForm = some last := by
  induction outer generalizing u leaf form with
  | nil =>
      cases htrail
      exact ⟨form, u, rfl, h, .refl u, hfound⟩
  | cons next rest ih =>
      cases htrail with
      | out hnext hrest =>
          obtain ⟨hnone, pos, hholds⟩ := pendingResult?_eq_some_iff.mp hnext
          obtain ⟨hmade, hevaluated, hform, hsame⟩ :=
            formAround_spec h hholds (h.forms leaf form hfound)
          obtain ⟨v, hv, hafter, hwritten, hrecorded⟩ := hmade.recordConstantForm
            (hevaluated.holds hholds).lt (by rw [hsame, hnone]) hform
          have htrail := pendingResult?_trail h hrest (hevaluated.trans hwritten).toGrown
            fun id hid => by rw [hrecorded.findingsOf_eq, if_neg hid, hsame]
          obtain ⟨last, w, hw, hmade', hevaluated', hlast⟩ := ih hafter htrail
            (by rw [hrecorded.findingsOf_eq, if_pos rfl])
          refine ⟨last, w, ?_, hmade', (hevaluated.trans hwritten).trans hevaluated', hlast⟩
          simpa only [recordConstantForms_cons, hv] using hw

/-- A leaf has a constant form unless it is a name that is out of scope. -/
theorem leafConstantForm_spec (hfits : c.Fits constants) (hid : id.index < u.exprs.size)
    (hleaf : ∀ result pos, ¬ u.Holds id (.functionType result) pos) :
    (∃ form, c.leafConstantForm id (u.expr id) = .ok form ∧ u.Form constants id form) ∨
      ∃ name pos, c.leafConstantForm id (u.expr id) = .error (.unknownName name pos) ∧
        u.Holds id (.name name) pos ∧ c.scopes.lookup name = none := by
  have hholds := holds_expr hid
  cases hexpr : (u.expr id).expr with
  | intLiteral value =>
      rw [hexpr] at hholds
      exact .inl ⟨some id, by simp [leafConstantForm, hexpr], .literal hholds⟩
  | baseType kind =>
      rw [hexpr] at hholds
      exact .inl ⟨some id, by simp [leafConstantForm, hexpr], .baseType hholds⟩
  | return_ value =>
      rw [hexpr] at hholds
      exact .inl ⟨none, by simp [leafConstantForm, hexpr], .return_ hholds⟩
  | functionType result =>
      rw [hexpr] at hholds
      exact absurd hholds (hleaf result _)
  | name name =>
      rw [hexpr] at hholds
      cases hfound : c.scopes.lookup name with
      | some binding =>
          refine .inl ⟨some binding.value, ?_, .name hholds (hfits.within name binding hfound)⟩
          simp [leafConstantForm, hexpr, lookup_eq_ok_iff.mpr hfound, Except.map]
      | none =>
          refine .inr ⟨name, _, ?_, hholds, hfound⟩
          simp [leafConstantForm, hexpr, lookup_eq_error_iff.mpr ⟨hfound, rfl⟩, Except.map]

theorem functionResult?_trail_of_pending {leaf : ExprId} {outer : List ExprId}
    (htrail : Trail (pendingResult? u) leaf outer id) : Trail u.functionResult? leaf outer id :=
  htrail.congr fun _ _ _ hinner =>
    functionResult?_eq_some_iff.mpr (pendingResult?_eq_some_iff.mp hinner).2

theorem functionsTo_of_pending {leaf : ExprId} {outer : List ExprId}
    (htrail : Trail (pendingResult? u) leaf outer id) : u.FunctionsTo id leaf :=
  ⟨outer, functionResult?_trail_of_pending htrail⟩

/-- The constant form of an expression is found, unless its leaf is a name that is out of scope:
then nothing changes. -/
theorem constantForm_evaluates (h : u.Evaluable constants) (hfits : c.Fits constants)
    (hid : id.index < u.exprs.size) :
    ∃ answer, c.constantForm u id = .ok answer ∧ answer.unit.Evaluable constants ∧
      u.Evaluates answer.unit ∧
      ((∃ form, answer.value = .ok form ∧
        (answer.unit.findingsOf id).constantForm = some form) ∨
      (answer.unit = u ∧ ∃ leaf name pos, answer.value = .error (.unknownName name pos) ∧
        u.FunctionsTo id leaf ∧ u.Holds leaf (.name name) pos ∧
        c.scopes.lookup name = none)) := by
  have hdown := pendingResult?_leadsDown h
  obtain ⟨htrail, hstop⟩ := ExprId.descend_spec hdown (.stay id)
  rw [constantForm, checkIndex_bind_of_lt hid]
  generalize id.descend (pendingResult? u) [] = reached at htrail hstop ⊢
  obtain ⟨outer, inner⟩ := reached
  have hinner : inner.index < u.exprs.size := Nat.lt_of_le_of_lt (htrail.index_le hdown) hid
  cases hslot : (u.findingsOf inner).constantForm with
  | some form =>
      obtain ⟨last, v, hv, hafter, hevaluated, hlast⟩ := recordConstantForms_spec h htrail hslot
      refine ⟨⟨.ok last, v⟩, ?_, hafter, hevaluated, .inl ⟨last, rfl, hlast⟩⟩
      simp only [hslot, hv]
      rfl
  | none =>
      have hleaf : ∀ result pos, ¬ u.Holds inner (.functionType result) pos := by
        intro result pos hholds
        rw [pendingResult?_eq_some_iff.mpr ⟨hslot, pos, hholds⟩] at hstop
        cases hstop
      rcases leafConstantForm_spec hfits hinner hleaf with
        ⟨form, hleafForm, hform⟩ | ⟨name, pos, hleafForm, hholds, hnone⟩
      · obtain ⟨v, hv, hafter, hevaluated, hrecorded⟩ := h.recordConstantForm hinner hslot hform
        have htrail' := pendingResult?_trail h htrail hevaluated.toGrown fun other hother => by
          rw [hrecorded.findingsOf_eq, if_neg hother]
        obtain ⟨last, w, hw, hmade', hevaluated', hlast⟩ := recordConstantForms_spec hafter htrail'
          (by rw [hrecorded.findingsOf_eq, if_pos rfl])
        refine ⟨⟨.ok last, w⟩, ?_, hmade', hevaluated.trans hevaluated', .inl ⟨last, rfl, hlast⟩⟩
        simp only [hslot, hleafForm, hv]
        change (recordConstantForms v form outer).bind _ = _
        rw [hw]
        rfl
      · refine ⟨⟨.error (.unknownName name pos), u⟩, ?_, h, .refl u, .inr ⟨rfl, inner, name, pos,
          rfl, functionsTo_of_pending htrail, hholds, hnone⟩⟩
        simp only [hslot, hleafForm]
        rfl

end Checker

end FrontEnd
