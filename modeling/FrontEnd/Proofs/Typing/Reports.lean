import FrontEnd.Proofs.Typing.Mismatches
import FrontEnd.Proofs.Typing.Verdicts

/-! # What checks report

A check reads its findings where it has them and makes them where not, and reports the same either
way: what it says follows from the nodes of the item and from the constants in scope. All that it
reads from earlier checks is which returns have their types. -/

namespace FrontEnd

variable {hash : Hasher}

/-! ## Reports -/

/-- The spelling of so many function types around a base type. -/
def spellShape (shape : Nat × BaseType) : String :=
  String.join (List.replicate shape.1 "() -> ") ++ shape.2.name

namespace CompilationUnit

variable (constants : Constants) (u : CompilationUnit hash)

/-- The type of an expression outside of functions, which is a base type. A return has a type
there if one was found. -/
def kindOf (id : ExprId) : Except SpelledError BaseType :=
  match u.expr id with
  | ⟨.intLiteral _, _⟩ => .ok .int32
  | ⟨.name name, pos⟩ =>
    if (constants name).isSome then .ok .type else .error (.unknownName name pos)
  | ⟨.baseType _, _⟩ | ⟨.functionType _, _⟩ => .ok .type
  | ⟨.return_ _, pos⟩ =>
    if (u.findingsOf id).type.isSome then .ok .never else .error (.strayReturn pos)

/-- What is said about an expression that should be a type. -/
def notAType (id : ExprId) : SpelledError :=
  match u.kindOf constants id with
  | .error e => e
  | .ok kind => .mismatch BaseType.type.name kind.name (u.expr id).pos

/-- The base type that an expression stands for, if it is no function type expression. -/
def standsFor : ExprNode → Except SpelledError (Option BaseType)
  | ⟨.name name, pos⟩ =>
    if (constants name).isSome then .ok (some .int32) else .error (.unknownName name pos)
  | ⟨.baseType kind, _⟩ => .ok (some kind)
  | _ => .ok none

/-- What is said about so many function types around a base type as a signature: the return type is
what is inside the outermost of them. -/
def declaredReport (kind : BaseType) : Nat → Except Breach (Except SpelledError (Nat × BaseType))
  | 0 => .error (.signatureIsBaseType kind)
  | depth + 1 => .ok (.ok (depth, kind))

/-- What is said about a signature with so many function types around a leaf. -/
def leafReport (signature leaf : ExprId) (depth : Nat) :
    Except Breach (Except SpelledError (Nat × BaseType)) :=
  match standsFor constants (u.expr leaf) with
  | .error e => .ok (.error e)
  | .ok none => .ok (.error (u.notAType constants ((u.functionResult? signature).getD signature)))
  | .ok (some kind) => declaredReport kind depth

def signatureReport (signature : ExprId) : Except Breach (Except SpelledError (Nat × BaseType)) :=
  let (outer, leaf) := signature.descend u.functionResult? []
  u.leafReport constants signature leaf outer.length

/-- What is said about returns, each the value of the next one, where the value of the first has a
base type. -/
def returnsReport (expected : Nat × BaseType) (value : ExprId) (actual : BaseType) :
    List ExprId → Except SpelledError Unit
  | [] => .ok ()
  | id :: rest =>
    if expected = (0, actual) then returnsReport expected id .never rest
    else .error (.mismatch (spellShape expected) actual.name (u.expr value).pos)

/-- What is said about a body of which a return type is expected. -/
def bodyReport (expected : Nat × BaseType) (body : ExprId) : Except SpelledError Unit :=
  let (returns, value) := body.descend (Checker.pendingValue? u) []
  (u.kindOf constants value).bind fun actual => u.returnsReport expected value actual returns

/-- What is said about an item. -/
def itemReport (function : FunctionItem) : Except Breach (Except SpelledError Unit) :=
  (u.signatureReport constants function.signature).map fun declared =>
    declared.bind fun expected => u.bodyReport constants expected function.body

end CompilationUnit

/-- A checker knows some constants and no others, and these stand for the integer type. -/
structure Checker.Exact (constants : Constants) (c : Checker hash) : Prop where
  scopes : c.scopes.WellFormed
  lookup_eq : ∀ name, c.scopes.lookup name = constants name
  integer : ∀ name binding, constants name = some binding →
    binding = ⟨BaseType.int32.exprId, BaseType.type.typeId⟩

open CompilationUnit

variable {constants : Constants} {u v : CompilationUnit hash} {c d : Checker hash}
  {id leaf : ExprId} {depth : Nat} {kind : BaseType}

namespace Checker

theorem Exact.fits (h : c.Exact constants) : c.Fits constants :=
  ⟨h.scopes, fun name _ hname => h.lookup_eq name ▸ hname⟩

theorem Exact.inside (h : c.Exact constants) (expected : TypeId) :
    Exact constants ⟨c.scopes.push, some expected⟩ :=
  ⟨h.scopes.push, fun name => (h.scopes.lookup_push name).trans (h.lookup_eq name), h.integer⟩

end Checker

namespace CompilationUnit

theorem spellShape_base (kind : BaseType) : spellShape (0, kind) = kind.name := by
  rw [spellShape, List.replicate_zero, String.join_nil, String.empty_append]

/-! ## Constant forms -/

/-- The constant form of function type expressions has as many of them around that of the leaf. -/
theorem Wraps.form (hwraps : u.Wraps id depth leaf) {form : Option ExprId}
    (hform : u.Form constants id form) : ∃ inner, u.Form constants leaf inner ∧
      ∀ base, inner = some base → ∃ evaluated, form = some evaluated ∧
        u.Wraps evaluated depth base := by
  induction hwraps generalizing form with
  | stay id => exact ⟨form, hform, fun base hbase => ⟨base, hbase, .stay base⟩⟩
  | function hholds _ ih =>
      rcases hform.of_holds hholds with ⟨rfl, hresult⟩ | ⟨inner, made, rfl, hresult, hmade⟩
      · obtain ⟨base, hbase, hsome⟩ := ih hresult
        refine ⟨base, hbase, fun found hfound => ?_⟩
        obtain ⟨evaluated, heq, -⟩ := hsome found hfound
        cases heq
      · obtain ⟨base, hbase, hsome⟩ := ih hresult
        refine ⟨base, hbase, fun found hfound => ?_⟩
        obtain ⟨evaluated, heq, hwraps⟩ := hsome found hfound
        cases heq
        exact ⟨made, rfl, .function hmade hwraps⟩

theorem wraps_of_trail {outer : List ExprId} (h : Trail u.functionResult? leaf outer id) :
    u.Wraps id outer.length leaf := by
  induction h with
  | stay id => exact .stay id
  | out hnext _ ih =>
      obtain ⟨pos, hholds⟩ := functionResult?_eq_some_iff.mp hnext
      exact ih.trans (.function hholds (.stay _))

/-- A descent through function types ends at what is inside of all of them. -/
theorem Sound.wraps_descend (h : u.Sound constants) (id : ExprId) :
    u.Wraps id (id.descend u.functionResult? []).1.length (id.descend u.functionResult? []).2 ∧
      ∀ result pos,
        ¬ u.Holds (id.descend u.functionResult? []).2 (.functionType result) pos := by
  obtain ⟨htrail, hstop⟩ := ExprId.descend_spec h.functionResult?_leadsDown (.stay id)
  refine ⟨wraps_of_trail htrail, fun result pos hholds => ?_⟩
  rw [functionResult?_eq_some_iff.mpr ⟨pos, hholds⟩] at hstop
  cases hstop

end CompilationUnit

namespace Answer

variable {α : Type} {answer : Answer hash α}

theorem spelled_eq_ok_iff {value : α} : answer.spelled = .ok value ↔ answer.value = .ok value := by
  rw [spelled]
  cases answer.value <;> simp [Except.mapError]

theorem spelled_eq_error_iff {e : SpelledError} : answer.spelled = .error e ↔
    ∃ found, answer.value = .error found ∧ found.spelled answer.unit = e := by
  rw [spelled]
  cases answer.value <;> simp [Except.mapError]

end Answer

namespace Checker

/-! ## Types of expressions -/

/-- What the node of an expression says about its type where one is found. -/
theorem kindOf_of_typed (hexact : c.Exact constants) {type : TypeId}
    (htype : u.Typed constants id type) (hid : id.index < u.exprs.size)
    (hreturn : ∀ value pos, u.Holds id (.return_ value) pos → (u.findingsOf id).type.isSome) :
    ∃ kind, u.kindOf constants id = .ok kind ∧ type = kind.typeId := by
  have hholds := holds_expr hid
  have htyped := htype.of_holds hholds
  unfold kindOf
  generalize u.expr id = node at hholds htyped ⊢
  obtain ⟨expr, pos⟩ := node
  cases expr with
  | intLiteral value => exact ⟨.int32, rfl, htyped⟩
  | baseType kind => exact ⟨.type, rfl, htyped⟩
  | functionType result => exact ⟨.type, rfl, htyped⟩
  | return_ value => exact ⟨.never, if_pos (hreturn value pos hholds), htyped.1⟩
  | name name =>
      obtain ⟨binding, hbound, rfl⟩ := htyped
      refine ⟨.type, if_pos (by rw [hbound]; rfl), ?_⟩
      rw [hexact.integer name binding hbound]

theorem kindOf_of_name {name : Name} {pos : Position} (hname : u.Holds id (.name name) pos)
    (hnone : constants name = none) :
    u.kindOf constants id = .error (.unknownName name pos) := by
  unfold kindOf
  rw [hname.expr_eq]
  simp [hnone]

theorem kindOf_of_return {value : ExprId} {pos : Position}
    (hreturn : u.Holds id (.return_ value) pos) : u.kindOf constants id =
      if (u.findingsOf id).type.isSome then .ok .never else .error (.strayReturn pos) := by
  unfold kindOf
  rw [hreturn.expr_eq]

/-- The type of an expression stays unless it is a return whose type was found in between. -/
theorem kindOf_grown (hgrown : u.Grown v) (hid : id.index < u.exprs.size)
    (hreturn : ∀ value pos, u.Holds id (.return_ value) pos →
      (v.findingsOf id).type.isSome = (u.findingsOf id).type.isSome) :
    v.kindOf constants id = u.kindOf constants id := by
  have hholds := holds_expr hid
  unfold kindOf
  rw [hgrown.expr_eq hid]
  generalize u.expr id = node at hholds ⊢
  obtain ⟨expr, pos⟩ := node
  cases expr with
  | return_ value => rw [hreturn value pos hholds]
  | intLiteral value => rfl
  | baseType kind => rfl
  | functionType result => rfl
  | name name => rfl

/-- Questions outside of functions leave the types of expressions as they are. -/
theorem kindOf_asked (hasked : u.Asked v) (hid : id.index < u.exprs.size) :
    v.kindOf constants id = u.kindOf constants id :=
  kindOf_grown hasked.toGrown hid fun value pos hholds => by
    rw [hasked.returnType_eq id value pos hholds]

theorem typeOfValue_kind (h : u.Sound constants) (hexact : c.Exact constants)
    (hid : id.index < u.exprs.size) (hstop : pendingValue? u id = none) :
    ∃ answer, c.typeOfValue u id = .ok answer ∧ answer.unit.Sound constants ∧
      u.Asked answer.unit ∧ answer.spelled = (u.kindOf constants id).map BaseType.typeId := by
  obtain ⟨answer, hanswer, hsound, hasked, -, hcases⟩ := typeOfValue_spec h hexact.fits hid hstop
  refine ⟨answer, hanswer, hsound, hasked, ?_⟩
  rcases hcases with ⟨type, hvalue, hfound⟩ | ⟨-, name, pos, herror, hname, hscope⟩
  · have hlt := Nat.lt_of_lt_of_le hid hasked.exprs.size_le
    obtain ⟨kind, hkind, rfl⟩ := kindOf_of_typed hexact (hsound.typed id type hfound) hlt
      fun _ _ _ => by rw [hfound]; rfl
    rw [kindOf_asked hasked hid] at hkind
    rw [Answer.spelled_eq_ok_iff.mpr hvalue, hkind]
    rfl
  · rw [hexact.lookup_eq] at hscope
    rw [kindOf_of_name hname hscope]
    exact Answer.spelled_eq_error_iff.mpr ⟨_, herror, rfl⟩

/-- Outside of functions a return has no other type than the one that was found. -/
theorem typeOf_kind (h : u.Sound constants) (hexact : c.Exact constants)
    (hout : c.returnType = none) (hid : id.index < u.exprs.size) :
    ∃ answer, c.typeOf u id = .ok answer ∧ answer.unit.Sound constants ∧
      u.Asked answer.unit ∧ answer.spelled = (u.kindOf constants id).map BaseType.typeId := by
  cases hpending : pendingValue? u id with
  | none =>
      rw [typeOf_of_not_pending hid hpending]
      exact typeOfValue_kind h hexact hid hpending
  | some value =>
      obtain ⟨hnone, pos, hreturn⟩ := pendingValue?_eq_some_iff.mp hpending
      have hstray := typeOf_stray (pendingValue?_leadsDown h) hout hpending
      refine ⟨_, hstray, h, .refl u, ?_⟩
      rw [kindOf_of_return hreturn, hnone, hreturn.expr_eq]
      rfl

/-! ## Signatures -/

theorem kindOf_of_functionType {result : ExprId} {pos : Position}
    (hholds : u.Holds id (.functionType result) pos) : u.kindOf constants id = .ok .type := by
  unfold kindOf
  rw [hholds.expr_eq]

theorem kindOf_of_wraps_base (hwraps : u.Wraps id depth leaf) {pos : Position}
    (hleaf : u.Holds leaf (.baseType kind) pos) : u.kindOf constants id = .ok .type := by
  cases hwraps with
  | stay =>
      unfold kindOf
      rw [hleaf.expr_eq]
  | function hholds _ => exact kindOf_of_functionType hholds

theorem notAType_of_ok (hkind : u.kindOf constants id = .ok kind) :
    u.notAType constants id = .mismatch BaseType.type.name kind.name (u.expr id).pos := by
  rw [notAType, hkind]

theorem notAType_of_error {e : SpelledError} (hkind : u.kindOf constants id = .error e) :
    u.notAType constants id = e := by
  rw [notAType, hkind]

theorem spelled_mismatch (h : u.TypesDescend) {type : TypeId} (hshape : u.Shape type depth kind)
    {actual : BaseType} (hactual : u.HoldsType actual.typeId (.base actual)) (pos : Position) :
    (TypingError.mismatch type actual.typeId pos).spelled u =
      .mismatch (spellShape (depth, kind)) actual.name pos := by
  rw [TypingError.spelled, h.spellType_eq hshape, h.spellType_eq (.base hactual)]
  exact congrArg (SpelledError.mismatch _ · pos) (spellShape_base actual)

theorem spelled_mismatch_base (h : u.Sound constants) (expected actual : BaseType)
    (pos : Position) : (TypingError.mismatch expected.typeId actual.typeId pos).spelled u =
      .mismatch expected.name actual.name pos := by
  rw [spelled_mismatch h.typesDescend (.base (h.baseTypes expected)) (h.baseTypes actual),
    spellShape_base]

/-- A signature that denotes no type is reported with its result. -/
theorem denotationError_report (h : u.Sound constants) (hexact : c.Exact constants)
    (hout : c.returnType = none) (hid : id.index < u.exprs.size) :
    ∃ answer, c.denotationError u id = .ok answer ∧
      answer.spelled = .error (u.notAType constants ((u.functionResult? id).getD id)) := by
  have htarget := h.target_lt hid
  unfold denotationError
  generalize (u.functionResult? id).getD id = target at htarget ⊢
  obtain ⟨first, hfirst, hsound, hasked, hspelled⟩ := typeOf_kind h hexact hout htarget
  cases hkind : u.kindOf constants target with
  | error e =>
      rw [hkind] at hspelled
      obtain ⟨found, hvalue, hfound⟩ := Answer.spelled_eq_error_iff.mp hspelled
      refine ⟨⟨.error found, first.unit⟩, ?_, ?_⟩
      · simp only [hfirst, Bind.bind, Except.bind, Answer.andThen_of_error hvalue]
      · rw [notAType_of_error hkind, ← hfound]
        rfl
  | ok kind =>
      rw [hkind] at hspelled
      have hvalue := Answer.spelled_eq_ok_iff.mp hspelled
      refine ⟨⟨.error (.mismatch BaseType.type.typeId kind.typeId (first.unit.expr target).pos),
        first.unit⟩, ?_, ?_⟩
      · simp only [hfirst, Bind.bind, Except.bind, Answer.andThen_of_ok hvalue]
      · rw [notAType_of_ok hkind, ← hasked.toGrown.expr_eq htarget]
        exact congrArg Except.error (spelled_mismatch_base hsound _ _ _)

/-- What is no type inside function type expressions is reported as such. -/
theorem denotedReturnType_of_noType (h : u.Sound constants) (hexact : c.Exact constants)
    (hout : c.returnType = none) (hwraps : u.Wraps id depth leaf) (hleaf : u.NoType leaf)
    (hid : id.index < u.exprs.size) :
    ∃ answer, c.denotedReturnType u id = .ok answer ∧
      answer.spelled = .error (u.notAType constants ((u.functionResult? id).getD id)) := by
  obtain ⟨type?, v, hv, hsound, hasked, hfound⟩ := denotedType_spec h hid
  have hwrapsAfter := (hasked.toGrown.wraps_iff h hid).mpr hwraps
  have hleafAfter := (hasked.toGrown.noType_iff hleaf.lt).mpr hleaf
  obtain rfl := hwrapsAfter.noType_denotes hleafAfter (hsound.denoted id _ hfound)
  obtain ⟨answer, hanswer, hspelled⟩ := denotationError_report hsound hexact hout
    (Nat.lt_of_lt_of_le hid hasked.exprs.size_le)
  refine ⟨answer, ?_, ?_⟩
  · simp only [denotedReturnType, hv, Bind.bind, Except.bind, hanswer]
  · have htarget := h.target_lt hid
    rw [hspelled, hasked.toGrown.functionResult?_eq hid, notAType, kindOf_asked hasked htarget,
      hasked.toGrown.expr_eq htarget]
    rfl

/-- What the checker says about a signature agrees with a report on it. -/
inductive Agrees (outcome : Except Breach (Answer hash TypeId)) :
    Except Breach (Except SpelledError (Nat × BaseType)) → Prop where
  | breach {breach} : outcome = .error breach → Agrees outcome (.error breach)
  | fails {answer e} : outcome = .ok answer → answer.spelled = .error e →
      Agrees outcome (.ok (.error e))
  | declares {answer result depth kind} : outcome = .ok answer → answer.value = .ok result →
      answer.unit.Shape result depth kind → Agrees outcome (.ok (.ok (depth, kind)))

/-- Function type expressions around a base type denote a type of this shape. -/
theorem denotedReturnType_of_base (h : u.Sound constants) (hwraps : u.Wraps id depth leaf)
    {pos : Position} (hleaf : u.Holds leaf (.baseType kind) pos) (hid : id.index < u.exprs.size) :
    Agrees (c.denotedReturnType u id) (declaredReport kind depth) := by
  obtain ⟨type?, v, hv, hsound, hasked, hfound⟩ := denotedType_spec h hid
  have hwrapsAfter := (hasked.toGrown.wraps_iff h hid).mpr hwraps
  obtain ⟨type, rfl, hshape⟩ :=
    hwrapsAfter.denotes hsound (hasked.holds hleaf) (hsound.denoted id _ hfound)
  simp only [denotedReturnType, hv, Bind.bind, Except.bind]
  cases hshape with
  | base hnode =>
      refine .breach ?_
      simp only [checkIndex_of_lt hnode.lt, hnode.typeNode_eq]
      rfl
  | @function _ result inner _ hnode hresult =>
      have hanswer : (⟨.ok result, v⟩ : Answer hash TypeId).value = .ok result := rfl
      refine .declares ?_ hanswer hresult
      simp only [checkIndex_of_lt hnode.lt, hnode.typeNode_eq]
      rfl

variable {form : Option ExprId} {first : Answer hash (Option ExprId)}

/-- An evaluated signature that is a type goes on to the type that it denotes. -/
theorem returnTypeOf_of_type (hfirst : c.constantForm u id = .ok first)
    (hform : first.value = .ok form) (h : first.unit.Sound constants) (hexact : c.Exact constants)
    (hout : c.returnType = none) (hevaluated : (form.getD id).index < first.unit.exprs.size)
    (hkind : first.unit.kindOf constants (form.getD id) = .ok .type) :
    ∃ v, v.Sound constants ∧ first.unit.Asked v ∧
      c.returnTypeOf u id = c.denotedReturnType v (form.getD id) := by
  obtain ⟨second, hsecond, hsound, hasked, hspelled⟩ := typeOf_kind h hexact hout hevaluated
  rw [hkind] at hspelled
  have hvalue := Answer.spelled_eq_ok_iff.mp hspelled
  refine ⟨second.unit, hsound, hasked, ?_⟩
  simp only [returnTypeOf, hfirst, hsecond, Bind.bind, Except.bind, Answer.andThen_of_ok hform,
    Answer.andThen_of_ok hvalue, compareTypes_self, if_true]

/-- A signature that stays itself and is no type is reported as such. -/
theorem returnTypeOf_of_noType (hfirst : c.constantForm u id = .ok first)
    (hform : first.value = .ok form) (h : first.unit.Sound constants) (hexact : c.Exact constants)
    (hout : c.returnType = none) (hid : id.index < first.unit.exprs.size)
    (hsame : form.getD id = id) (hkind : first.unit.kindOf constants id ≠ .ok .type) :
    ∃ answer, c.returnTypeOf u id = .ok answer ∧
      answer.spelled = .error (first.unit.notAType constants id) := by
  obtain ⟨second, hsecond, hsound, hasked, hspelled⟩ := typeOf_kind h hexact hout hid
  simp only [returnTypeOf, hfirst, Bind.bind, Except.bind, Answer.andThen_of_ok hform, hsame,
    hsecond]
  cases hfound : first.unit.kindOf constants id with
  | error e =>
      rw [hfound] at hspelled
      obtain ⟨found, hvalue, hfoundSpelled⟩ := Answer.spelled_eq_error_iff.mp hspelled
      refine ⟨⟨.error found, second.unit⟩, Answer.andThen_of_error hvalue, ?_⟩
      rw [notAType_of_error hfound, ← hfoundSpelled]
      rfl
  | ok kind =>
      rw [hfound] at hspelled
      have hvalue := Answer.spelled_eq_ok_iff.mp hspelled
      have hnot : ¬ second.unit.sameType kind.typeId BaseType.type.typeId = true := by
        rw [hsound.typesDescend.sameType_iff (.base (hsound.baseTypes kind))
          (.base (hsound.baseTypes .type))]
        rintro ⟨-, rfl⟩
        exact hkind hfound
      refine ⟨⟨.error (.mismatch BaseType.type.typeId kind.typeId (second.unit.expr id).pos),
        second.unit⟩, ?_, ?_⟩
      · rw [Answer.andThen_of_ok hvalue, compareTypes_of_lt (hsound.baseTypes kind).lt
          (hsound.baseTypes .type).lt]
        simp only [hnot]
        rfl
      · rw [notAType_of_ok hfound, ← hasked.toGrown.expr_eq hid]
        exact congrArg Except.error (spelled_mismatch_base hsound _ _ _)

/-- A name in a signature is unknown, or stands for the integer type. -/
theorem standsFor_of_name {name : Name} {pos : Position} (hname : u.Holds id (.name name) pos) :
    standsFor constants (u.expr id) =
      if (constants name).isSome then .ok (some .int32) else .error (.unknownName name pos) := by
  rw [hname.expr_eq]
  rfl

theorem standsFor_of_base {pos : Position} (hbase : u.Holds id (.baseType kind) pos) :
    standsFor constants (u.expr id) = .ok (some kind) := by
  rw [hbase.expr_eq]
  rfl

theorem standsFor_of_noType (hid : u.NoType id) : standsFor constants (u.expr id) = .ok none := by
  cases hid with
  | literal hholds => rw [hholds.expr_eq]; rfl
  | return_ hholds => rw [hholds.expr_eq]; rfl

theorem notAType_asked (hasked : u.Asked v) (hid : id.index < u.exprs.size) :
    v.notAType constants id = u.notAType constants id := by
  rw [notAType, kindOf_asked hasked hid, hasked.toGrown.expr_eq hid, notAType]

/-- The constant form of what is no type is reported as the expression itself would be. -/
theorem notAType_of_form {made : ExprId} (hwraps : u.Wraps id depth leaf) (hleaf : u.NoType leaf)
    (hform : u.Form constants id (some made)) :
    u.notAType constants made = u.notAType constants id := by
  cases hform with
  | literal _ => rfl
  | baseType _ => rfl
  | name hname _ =>
      cases hwraps with
      | stay => exact absurd hname (hleaf.not_name _ _)
      | function hholds _ => cases (hname.unique hholds).1
  | function hholds _ hmade =>
      rw [notAType_of_ok (kindOf_of_functionType hmade), notAType_of_ok
        (kindOf_of_functionType hholds), hmade.expr_eq, hholds.expr_eq]

/-- The result of an evaluated signature that is no type is reported as that of the signature. -/
theorem notAType_result (hwraps : u.Wraps id (depth + 1) leaf) (hleaf : u.NoType leaf)
    (hform : u.Form constants id form) :
    u.notAType constants ((u.functionResult? (form.getD id)).getD (form.getD id)) =
      u.notAType constants ((u.functionResult? id).getD id) := by
  cases hwraps with
  | function hholds hrest =>
      rcases hform.of_holds hholds with ⟨rfl, -⟩ | ⟨inner, made, rfl, hresult, hmade⟩
      · rfl
      · rw [Option.getD_some, functionResult?_eq_some_iff.mpr ⟨_, hmade⟩,
          functionResult?_eq_some_iff.mpr ⟨_, hholds⟩]
        exact notAType_of_form hrest hleaf hresult

theorem kindOf_ne_type (hid : u.NoType id) : u.kindOf constants id ≠ .ok .type := by
  cases hid with
  | literal hholds =>
      unfold kindOf
      rw [hholds.expr_eq]
      exact nofun
  | return_ hholds =>
      rw [kindOf_of_return hholds]
      split <;> simp

/-- Around a base type, evaluated, the declared type is found. -/
theorem returnTypeOf_of_base (hfirst : c.constantForm u id = .ok first) {evaluated : ExprId}
    (hform : first.value = .ok (some evaluated)) (h : first.unit.Sound constants)
    (hexact : c.Exact constants) (hout : c.returnType = none)
    (hevaluated : evaluated.index < first.unit.exprs.size)
    (hwraps : first.unit.Wraps evaluated depth leaf) {pos : Position}
    (hleaf : first.unit.Holds leaf (.baseType kind) pos) :
    Agrees (c.returnTypeOf u id) (declaredReport kind depth) := by
  obtain ⟨v, hsound, hasked, hrest⟩ := returnTypeOf_of_type hfirst hform h hexact hout hevaluated
    (kindOf_of_wraps_base hwraps hleaf)
  rw [hrest]
  exact denotedReturnType_of_base hsound ((hasked.toGrown.wraps_iff h hevaluated).mpr hwraps)
    (hasked.holds hleaf) (Nat.lt_of_lt_of_le hevaluated hasked.exprs.size_le)

/-- Around what is no type, the result of the signature is reported, or else the signature. -/
theorem returnTypeOf_of_wraps_noType (hfirst : c.constantForm u id = .ok first)
    (hvalue : first.value = .ok form) (h : first.unit.Sound constants) (hexact : c.Exact constants)
    (hout : c.returnType = none) (hid : id.index < first.unit.exprs.size)
    (hform : (first.unit.findingsOf id).constantForm = some form)
    (hwraps : first.unit.Wraps id depth leaf) (hleaf : first.unit.NoType leaf) :
    ∃ answer, c.returnTypeOf u id = .ok answer ∧ answer.spelled =
      .error (first.unit.notAType constants ((first.unit.functionResult? id).getD id)) := by
  have hevaluated := h.evaluated_lt hid hform
  have hwrapsForm := hwraps.noType_form hleaf (h.forms id form hform)
  cases depth with
  | zero =>
      cases hwraps
      have hnone : first.unit.functionResult? id = none := by
        rw [Option.eq_none_iff_forall_ne_some]
        intro result hresult
        obtain ⟨pos, hholds⟩ := functionResult?_eq_some_iff.mp hresult
        exact hleaf.not_function _ _ hholds
      have hsame : form.getD id = id := by
        generalize form.getD id = evaluated at hwrapsForm
        cases hwrapsForm
        rfl
      rw [hnone]
      exact returnTypeOf_of_noType hfirst hvalue h hexact hout hid hsame (kindOf_ne_type hleaf)
  | succ depth =>
      have hkind : first.unit.kindOf constants (form.getD id) = .ok .type := by
        cases hwrapsForm with
        | function hholds _ => exact kindOf_of_functionType hholds
      obtain ⟨v, hsound, hasked, hrest⟩ :=
        returnTypeOf_of_type hfirst hvalue h hexact hout hevaluated hkind
      obtain ⟨answer, hanswer, hspelled⟩ := denotedReturnType_of_noType hsound hexact hout
        ((hasked.toGrown.wraps_iff h hevaluated).mpr hwrapsForm)
        ((hasked.toGrown.noType_iff hleaf.lt).mpr hleaf)
        (Nat.lt_of_lt_of_le hevaluated hasked.exprs.size_le)
      refine ⟨answer, hrest.trans hanswer, ?_⟩
      rw [hspelled, hasked.toGrown.functionResult?_eq hevaluated,
        notAType_asked hasked (h.target_lt hevaluated), notAType_result hwraps hleaf
        (h.forms id form hform)]

/-- What the checker finds for a signature is what is reported about it. -/
theorem returnTypeOf_agrees (h : u.Sound constants) (hexact : c.Exact constants)
    (hout : c.returnType = none) (hid : id.index < u.exprs.size) :
    Agrees (c.returnTypeOf u id) (u.signatureReport constants id) := by
  obtain ⟨hwraps, hleaf⟩ := h.wraps_descend id
  unfold signatureReport
  generalize id.descend u.functionResult? [] = reached at hwraps hleaf ⊢
  obtain ⟨outer, leaf⟩ := reached
  dsimp only at hwraps hleaf ⊢
  have hholds := holds_expr (hwraps.lt h hid)
  obtain ⟨first, hfirst, hsound, hasked, ⟨form, hvalue, hfound⟩ | ⟨-, other, name, pos, herror,
    ⟨_, hother⟩, hname, hscope⟩⟩ := constantForm_spec h hexact.fits hid
  · have hidAfter := Nat.lt_of_lt_of_le hid hasked.exprs.size_le
    have hwrapsAfter := (hasked.toGrown.wraps_iff h hid).mpr hwraps
    obtain ⟨inner, hinner, hsome⟩ := hwrapsAfter.form (hsound.forms id form hfound)
    have hbase : ∀ {kind base pos}, inner = some base →
        first.unit.Holds base (.baseType kind) pos →
        Agrees (c.returnTypeOf u id) (declaredReport kind outer.length) := by
      intro kind base pos hsame hbase
      obtain ⟨evaluated, rfl, hwrapsForm⟩ := hsome base hsame
      exact returnTypeOf_of_base hfirst hvalue hsound hexact hout
        (hsound.evaluated_lt hidAfter hfound) hwrapsForm hbase
    have hnoType : first.unit.NoType leaf → u.NoType leaf →
        Agrees (c.returnTypeOf u id) (u.leafReport constants id leaf outer.length) := by
      intro hafter hbefore
      obtain ⟨answer, hanswer, hspelled⟩ := returnTypeOf_of_wraps_noType hfirst hvalue hsound hexact
        hout hidAfter hfound hwrapsAfter hafter
      rw [leafReport, standsFor_of_noType hbefore]
      refine .fails hanswer ?_
      rw [hspelled, hasked.toGrown.functionResult?_eq hid, notAType_asked hasked (h.target_lt hid)]
    cases hexpr : (u.expr leaf).expr with
    | intLiteral value =>
        rw [hexpr] at hholds
        exact hnoType (.literal (hasked.holds hholds)) (.literal hholds)
    | return_ value =>
        rw [hexpr] at hholds
        exact hnoType (.return_ (hasked.holds hholds)) (.return_ hholds)
    | functionType result => exact absurd (hexpr ▸ hholds) (hleaf _ _)
    | baseType kind =>
        rw [hexpr] at hholds
        rw [leafReport, standsFor_of_base hholds]
        exact hbase (hinner.of_holds (hasked.holds hholds)) (hasked.holds hholds)
    | name name =>
        rw [hexpr] at hholds
        obtain ⟨binding, hbound, hsame⟩ := hinner.of_holds (hasked.holds hholds)
        obtain rfl := hexact.integer name binding hbound
        rw [leafReport, standsFor_of_name hholds, if_pos (by simp [hbound])]
        exact hbase hsame (hsound.baseExprs .int32)
  · -- the name that is out of scope is the leaf
    have hnot : ∀ result pos, ¬ u.Holds other (.functionType result) pos := fun _ _ hfunction => by
      cases (hname.unique hfunction).1
    obtain ⟨-, rfl⟩ := hwraps.unique hleaf (wraps_of_trail hother) hnot
    rw [hexact.lookup_eq] at hscope
    rw [leafReport, standsFor_of_name hname, if_neg (by simp [hscope])]
    have hanswer : c.returnTypeOf u id = .ok ⟨.error (.unknownName name pos), first.unit⟩ := by
      simp only [returnTypeOf, hfirst, Bind.bind, Except.bind, Answer.andThen_of_error herror]
    exact .fails hanswer rfl

end Checker

end FrontEnd
