import FrontEnd.Proofs.Typing.ConstantForms

/-! # Denoted types

The question for a denoted type reads and records denoted types and adds types. It is answered in
every unit whose denoted types are true, whatever else was found there, and it finds something only
about the expression and what is inside of it. -/

namespace FrontEnd

variable {hash : Hasher}

namespace CompilationUnit

variable {constants : Constants} {u v w : CompilationUnit hash} {id leaf : ExprId}
  {outer : List ExprId}

/-! ## Units in which expressions can be asked for types -/

/-- Nodes descend, and the denoted types that were found are true. -/
structure Denotable (u : CompilationUnit hash) : Prop where
  findings_size : u.findings.size = u.exprs.size
  baseTypes : ∀ kind : BaseType, u.HoldsType kind.typeId (.base kind)
  typesDescend : u.TypesDescend
  exprsDescend : LeadsDown u.child?
  denoted : ∀ id type, (u.findingsOf id).denotedType = some type → u.Denotes id type

theorem Sound.denotable (h : u.Sound constants) : u.Denotable where
  findings_size := h.findings_size
  baseTypes := h.baseTypes
  typesDescend := h.typesDescend
  exprsDescend := h.exprsDescend
  denoted := h.denoted

/-- Types are added and denoted types are recorded. -/
structure Lifts (u v : CompilationUnit hash) : Prop extends Queried u v where
  exprs_eq : v.exprs = u.exprs
  constantForm_eq : ∀ id, (v.findingsOf id).constantForm = (u.findingsOf id).constantForm
  type_eq : ∀ id, (v.findingsOf id).type = (u.findingsOf id).type

theorem Lifts.refl (u : CompilationUnit hash) : u.Lifts u :=
  ⟨.refl u, rfl, fun _ => rfl, fun _ => rfl⟩

theorem Lifts.trans (huv : u.Lifts v) (hvw : v.Lifts w) : u.Lifts w where
  toQueried := huv.toQueried.trans hvw.toQueried
  exprs_eq := hvw.exprs_eq.trans huv.exprs_eq
  constantForm_eq id := (hvw.constantForm_eq id).trans (huv.constantForm_eq id)
  type_eq id := (hvw.type_eq id).trans (huv.type_eq id)

theorem Lifts.asked (h : u.Lifts v) : u.Asked v :=
  ⟨h.toQueried, fun id _ _ _ => h.type_eq id⟩

theorem lifts_addFunctionType (u : CompilationUnit hash) (result : TypeId) :
    u.Lifts (u.addFunctionType result).2 where
  toQueried := queried_addFunctionType u result
  exprs_eq := rfl
  constantForm_eq _ := rfl
  type_eq _ := rfl

theorem Denotable.addFunctionType (h : u.Denotable) {result : TypeId}
    (hresult : result.index < u.types.size) : (u.addFunctionType result).2.Denotable where
  findings_size := h.findings_size
  baseTypes kind := (queried_addFunctionType u result).holdsType (h.baseTypes kind)
  typesDescend := typesDescend_addFunctionType h.typesDescend hresult
  exprsDescend := h.exprsDescend
  denoted id type htype := (queried_addFunctionType u result).denotes (h.denoted id type htype)

theorem Denotable.recordDenotedType (h : u.Denotable) (hid : id.index < u.exprs.size)
    (hnone : (u.findingsOf id).denotedType = none) {type : Option TypeId}
    (htype : u.Denotes id type) :
    ∃ v, u.record .denotedType id type = .ok v ∧ v.Denotable ∧ u.Lifts v ∧
      u.Recorded v id fun found => { found with denotedType := some type } := by
  obtain ⟨v, hv⟩ := exists_record .denotedType (h.findings_size ▸ hid) hnone type
  have hrecorded : u.Recorded v id fun found => { found with denotedType := some type } :=
    recorded_record hv
  refine ⟨v, hv, ⟨?_, fun kind => hrecorded.holdsType (h.baseTypes kind), ?_, ?_,
    fun other found hfound => ?_⟩,
    ⟨queried_record (by decide) hv, hrecorded.exprs_eq, fun other => ?_, fun other => ?_⟩,
      hrecorded⟩
  · rw [hrecorded.findings_size, hrecorded.exprs_eq, h.findings_size]
  · intro type result htype
    rw [HoldsType, hrecorded.types_eq] at htype
    exact h.typesDescend type result htype
  · intro other inner hinner
    rw [child?, expr, hrecorded.exprs_eq] at hinner
    exact h.exprsDescend other inner hinner
  · rw [hrecorded.findingsOf_eq] at hfound
    refine hrecorded.toGrown.denotes ?_
    split at hfound
    · rename_i heq
      cases hfound
      exact heq ▸ htype
    · exact h.denoted other found hfound
  · rw [hrecorded.findingsOf_eq]
    split
    · rename_i heq
      rw [heq]
    · rfl
  · rw [hrecorded.findingsOf_eq]
    split
    · rename_i heq
      rw [heq]
    · rfl

/-- A unit stays sound if its denoted types stay true. -/
theorem Sound.lifted (h : u.Sound constants) (hlifts : u.Lifts v) (hv : v.Denotable) :
    v.Sound constants where
  names := hlifts.names_eq ▸ h.names
  findings_size := hv.findings_size
  baseTypes := hv.baseTypes
  baseExprs kind := hlifts.holds (h.baseExprs kind)
  typesDescend := hv.typesDescend
  exprsDescend := hv.exprsDescend
  items := h.items.grow hlifts.toGrown hlifts.items_eq
  constantsHold name binding hname := by
    obtain ⟨hvalue, htype⟩ := h.constantsHold name binding hname
    exact ⟨hlifts.exprs_eq ▸ hvalue, Nat.lt_of_lt_of_le htype hlifts.types.size_le⟩
  forms id form hform :=
    (h.forms id form (hlifts.constantForm_eq id ▸ hform)).mono hlifts.toGrown (.refl constants)
  denoted := hv.denoted
  typed id type htype :=
    (h.typed id type (hlifts.type_eq id ▸ htype)).mono hlifts.toGrown (.refl constants)

end CompilationUnit

namespace Checker

open CompilationUnit

variable {u v : CompilationUnit hash} {id leaf top : ExprId} {outer : List ExprId}

/-! ## The question -/

theorem pendingDenotation?_eq (u : CompilationUnit hash) :
    pendingDenotation? u = pending? (fun found => found.denotedType) u.functionResult? u := rfl

theorem pendingDenotation?_eq_some_iff {result : ExprId} :
    pendingDenotation? u id = some result ↔ (u.findingsOf id).denotedType = none ∧
      ∃ pos, u.Holds id (.functionType result) pos := by
  rw [pendingDenotation?_eq, pending?_eq_some_iff, functionResult?_eq_some_iff]

theorem pendingDenotation?_leadsDown (h : u.Denotable) : LeadsDown (pendingDenotation? u) :=
  pending?_leadsDown (functionResult?_leadsDown h.exprsDescend)

theorem pendingDenotation?_trail (h : u.Denotable)
    (htrail : Trail (pendingDenotation? u) leaf outer top) (hgrown : u.Grown v)
    (hothers : ∀ id, id ≠ leaf →
      (v.findingsOf id).denotedType = (u.findingsOf id).denotedType) :
    Trail (pendingDenotation? v) leaf outer top :=
  pending?_trail (functionResult?_leadsDown h.exprsDescend) htrail
    (fun _ _ => hgrown.functionResult?) hothers

/-- Pending expressions are inside of the one that is asked about. -/
theorem functionsTo_of_undenoted (htrail : Trail (pendingDenotation? u) leaf outer top) :
    u.FunctionsTo top leaf :=
  ⟨outer, htrail.congr fun _ _ _ hinner => (pending?_eq_some_iff.mp hinner).2⟩

/-- A denoted type is a type. -/
theorem denoted_lt (h : u.Denotable) {type : TypeId} (htype : u.Denotes id (some type)) :
    type.index < u.types.size := by
  cases htype with
  | baseType _ => exact (h.baseTypes _).lt
  | function _ _ hnew => exact hnew.lt

/-- The type denoted by a function type expression, made from that of its result. -/
def typeAround (u : CompilationUnit hash) : Option TypeId → Option TypeId × CompilationUnit hash
  | none => (none, u)
  | some result => (some (u.addFunctionType result).1, (u.addFunctionType result).2)

theorem recordDenotedTypes_cons (type : Option TypeId) (rest : List ExprId) :
    recordDenotedTypes u type (id :: rest) =
      match (typeAround u type).2.record .denotedType id (typeAround u type).1 with
      | .error breach => .error breach
      | .ok u' => recordDenotedTypes u' (typeAround u type).1 rest := by
  cases type <;> rfl

theorem typeAround_spec (h : u.Denotable) {next : ExprId} {pos : Position}
    (hnext : u.Holds next (.functionType id) pos) {type : Option TypeId}
    (htype : u.Denotes id type) :
    (typeAround u type).2.Denotable ∧ u.Lifts (typeAround u type).2 ∧
      (typeAround u type).2.Denotes next (typeAround u type).1 ∧
      ∀ id, (typeAround u type).2.findingsOf id = u.findingsOf id := by
  cases type with
  | none => exact ⟨h, .refl u, .typeless hnext htype, fun _ => rfl⟩
  | some result =>
      have hlifts := lifts_addFunctionType u result
      refine ⟨h.addFunctionType (denoted_lt h htype), hlifts, ?_, fun _ => rfl⟩
      exact .function (hlifts.holds hnext) (hlifts.toGrown.denotes htype)
        (holdsType_addFunctionType u result)

theorem recordDenotedTypes_spec (h : u.Denotable) {leaf top : ExprId} {outer : List ExprId}
    (htrail : Trail (pendingDenotation? u) leaf outer top) {type : Option TypeId}
    (hfound : (u.findingsOf leaf).denotedType = some type) :
    ∃ last v, recordDenotedTypes u type outer = .ok (last, v) ∧ v.Denotable ∧ u.Lifts v ∧
      (v.findingsOf top).denotedType = some last ∧
      ∀ other ∉ outer, (v.findingsOf other).denotedType = (u.findingsOf other).denotedType := by
  induction outer generalizing u leaf type with
  | nil =>
      cases htrail
      exact ⟨type, u, rfl, h, .refl u, hfound, fun _ _ => rfl⟩
  | cons next rest ih =>
      cases htrail with
      | out hnext hrest =>
          obtain ⟨hnone, pos, hholds⟩ := pendingDenotation?_eq_some_iff.mp hnext
          obtain ⟨hmade, hlifts, htype, hsame⟩ :=
            typeAround_spec h hholds (h.denoted leaf type hfound)
          obtain ⟨v, hv, hdenotable, hrecordedLifts, hrecorded⟩ := hmade.recordDenotedType
            (hlifts.holds hholds).lt (by rw [hsame, hnone]) htype
          have hbetween := hlifts.trans hrecordedLifts
          have hothers : ∀ other, other ≠ next →
              (v.findingsOf other).denotedType = (u.findingsOf other).denotedType :=
            fun other hother => by rw [hrecorded.findingsOf_eq, if_neg hother, hsame]
          have htrail := pendingDenotation?_trail h hrest hbetween.toGrown hothers
          obtain ⟨last, w, hw, hdenotable', hlifts', hlast, hkept⟩ := ih hdenotable htrail
            (by rw [hrecorded.findingsOf_eq, if_pos rfl])
          refine ⟨last, w, ?_, hdenotable', hbetween.trans hlifts', hlast, fun other hother => ?_⟩
          · simpa only [recordDenotedTypes_cons, hv] using hw
          · obtain ⟨hne, hrest⟩ := List.ne_and_not_mem_of_not_mem_cons hother
            exact (hkept other hrest).trans (hothers other hne)

theorem leafDenotedType_spec (hid : id.index < u.exprs.size)
    (hleaf : ∀ result pos, ¬ u.Holds id (.functionType result) pos) :
    u.Denotes id (leafDenotedType (u.expr id).expr) := by
  have hholds := holds_expr hid
  cases hexpr : (u.expr id).expr with
  | intLiteral value => exact .literal (hexpr ▸ hholds)
  | baseType kind => exact .baseType (hexpr ▸ hholds)
  | return_ value => exact .return_ (hexpr ▸ hholds)
  | functionType result => exact absurd (hexpr ▸ hholds) (hleaf result _)
  | name name => exact .name (hexpr ▸ hholds)

/-- Whether an expression denotes a type is always found. Nothing is found about expressions that
are not inside of it. -/
theorem denotedType_lifts (h : u.Denotable) (hid : id.index < u.exprs.size) :
    ∃ type v, denotedType u id = .ok (type, v) ∧ v.Denotable ∧ u.Lifts v ∧
      (v.findingsOf id).denotedType = some type ∧
      ∀ other, ¬ u.FunctionsTo id other →
        (v.findingsOf other).denotedType = (u.findingsOf other).denotedType := by
  have hdown := pendingDenotation?_leadsDown h
  obtain ⟨htrail, hstop⟩ := ExprId.descend_spec hdown (.stay id)
  rw [denotedType, checkIndex_bind_of_lt hid]
  generalize id.descend (pendingDenotation? u) [] = reached at htrail hstop ⊢
  obtain ⟨outer, inner⟩ := reached
  have hinner : inner.index < u.exprs.size := Nat.lt_of_le_of_lt (htrail.index_le hdown) hid
  have houtside : ∀ other, ¬ u.FunctionsTo id other → other ∉ outer ∧ other ≠ inner := by
    refine fun other hother => ⟨fun hmem => ?_, ?_⟩
    · obtain ⟨rest, hrest⟩ := htrail.exists_of_mem hmem
      exact hother (functionsTo_of_undenoted hrest)
    · rintro rfl
      exact hother (functionsTo_of_undenoted htrail)
  cases hslot : (u.findingsOf inner).denotedType with
  | some type =>
      obtain ⟨last, v, hv, hdenotable, hlifts, hlast, hkept⟩ :=
        recordDenotedTypes_spec h htrail hslot
      refine ⟨last, v, ?_, hdenotable, hlifts, hlast,
        fun other hother => hkept other (houtside other hother).1⟩
      simp only [hslot, hv]
  | none =>
      have hleaf : ∀ result pos, ¬ u.Holds inner (.functionType result) pos := by
        intro result pos hholds
        rw [pendingDenotation?_eq_some_iff.mpr ⟨hslot, pos, hholds⟩] at hstop
        cases hstop
      obtain ⟨v, hv, hdenotable, hlifts, hrecorded⟩ :=
        h.recordDenotedType hinner hslot (leafDenotedType_spec hinner hleaf)
      have hothers : ∀ other, other ≠ inner →
          (v.findingsOf other).denotedType = (u.findingsOf other).denotedType :=
        fun other hother => by rw [hrecorded.findingsOf_eq, if_neg hother]
      have htrail' := pendingDenotation?_trail h htrail hlifts.toGrown hothers
      obtain ⟨last, w, hw, hdenotable', hlifts', hlast, hkept⟩ :=
        recordDenotedTypes_spec hdenotable htrail'
          (by rw [hrecorded.findingsOf_eq, if_pos rfl])
      refine ⟨last, w, ?_, hdenotable', hlifts.trans hlifts', hlast, fun other hother => ?_⟩
      · simp only [hslot]
        change (u.record .denotedType inner _).bind _ = _
        rw [hv]
        exact hw
      · obtain ⟨hmem, hne⟩ := houtside other hother
        exact (hkept other hmem).trans (hothers other hne)

end Checker

end FrontEnd
