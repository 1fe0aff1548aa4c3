import FrontEnd.Proofs.Typing.SpelledTypes

/-! # Verdicts on spelled items

The spellings of a return type and of the value that is returned decide whether an item passes its
check, and else its error. Only a return that has its type already is not looked at again. -/

namespace FrontEnd

variable {hash : Hasher}

/-! ## Verdicts -/

/-- An error with its types spelled out. -/
inductive SpelledError where
  | unknownName (name : Name) (pos : Position)
  | mismatch (expected actual : String) (pos : Position)
  | strayReturn (pos : Position)
deriving DecidableEq

def TypingError.spelled (u : CompilationUnit hash) : TypingError → SpelledError
  | .unknownName name pos => .unknownName name pos
  | .mismatch expected actual pos => .mismatch (u.spellType expected) (u.spellType actual) pos
  | .strayReturn pos => .strayReturn pos

/-- What an answer says, with the types of an error spelled out. -/
def Answer.spelled {α : Type} (answer : Answer hash α) : Except SpelledError α :=
  answer.value.mapError fun e => e.spelled answer.unit

namespace TypeSyntax

/-- The position of the first token. -/
def pos (type : TypeSyntax) : Position := type.opens.reverse.headD type.basePos

/-- The spelling of a type whose name is that of the integer type. -/
def int32Text (type : TypeSyntax) : String :=
  String.join (List.replicate type.opens.length "() -> ") ++ BaseType.int32.name

/-- The name in a return type must be that of the integer type. -/
def verdict (names : Interner hash.text) (result : TypeSyntax) : Except SpelledError Unit :=
  if names.text? result.base = some BaseType.int32.name then .ok ()
  else .error (.unknownName result.base result.basePos)

end TypeSyntax

namespace ValueSyntax

def pos : ValueSyntax → Position
  | .literal _ pos => pos
  | .type written => written.pos

/-- Only a number has the type that a function returns, and only if that is the integer type. The
name in a type is looked up if it stands alone. -/
def verdict (names : Interner hash.text) (result : TypeSyntax) :
    ValueSyntax → Except SpelledError Unit
  | .literal _ pos =>
    if result.opens = [] then .ok ()
    else .error (.mismatch result.int32Text BaseType.int32.name pos)
  | .type written =>
    if written.opens = [] ∧ names.text? written.base ≠ some BaseType.int32.name then
      .error (.unknownName written.base written.basePos)
    else .error (.mismatch result.int32Text BaseType.type.name written.pos)

/-- What a value is, unless it is a name that is out of scope. -/
def kind (names : Interner hash.text) : ValueSyntax → Except TypingError BaseType
  | .literal _ _ => .ok .int32
  | .type written =>
    if written.opens = [] ∧ names.text? written.base ≠ some BaseType.int32.name then
      .error (.unknownName written.base written.basePos)
    else .ok .type

theorem verdict_of_kind_error {names : Interner hash.text} {result : TypeSyntax}
    {value : ValueSyntax} {e : TypingError} (h : value.kind names = .error e)
    (u : CompilationUnit hash) :
    value.verdict names result = .error (e.spelled u) := by
  cases value with
  | literal number pos => cases h
  | type written =>
      rw [kind] at h
      rw [verdict]
      split at h
      · rename_i hname
        cases h
        rw [if_pos hname]
        rfl
      · cases h

end ValueSyntax

/-- The verdict on an item that returns a value: the return type comes first. -/
def itemVerdict (names : Interner hash.text) (result : TypeSyntax) (value : ValueSyntax) :
    Except SpelledError Unit :=
  (result.verdict names).bind fun _ => value.verdict names result

/-! ## Returned values -/

namespace CompilationUnit

variable {constants : Constants} {u v : CompilationUnit hash} {id : ExprId}
  {names : Interner hash.text} {value : ValueSyntax} {opens : List Position} {base : Name}
  {basePos : Position}

theorem Spells.pos_eq (h : u.Spells id opens base basePos) :
    (u.expr id).pos = opens.headD basePos := by
  cases h with
  | name hid => rw [hid.expr_eq, List.headD_nil]
  | function hid _ => rw [hid.expr_eq, List.headD_cons]

theorem SpellsValue.pos_eq (h : u.SpellsValue id value) : (u.expr id).pos = value.pos := by
  cases h with
  | literal hid =>
      rw [hid.expr_eq]
      rfl
  | type htype => exact Spells.pos_eq htype

theorem Spells.not_return (h : u.Spells id opens base basePos) (inner : ExprId)
    (pos : Position) : ¬ u.Holds id (.return_ inner) pos := by
  intro hreturn
  cases h with
  | name hid => cases (hid.unique hreturn).1
  | function hid _ => cases (hid.unique hreturn).1

theorem SpellsValue.not_return (h : u.SpellsValue id value) (inner : ExprId) (pos : Position) :
    ¬ u.Holds id (.return_ inner) pos := by
  cases h with
  | literal hid =>
      intro hreturn
      cases (hid.unique hreturn).1
  | type htype => exact Spells.not_return htype inner pos

/-- The type of a type that is spelled is that of types, and a name that stands alone has one. -/
theorem Spells.typed (h : u.Spells id opens base basePos) {type : TypeId}
    (htype : u.Typed (standardConstants names) id type) :
    type = BaseType.type.typeId ∧
      (opens = [] → names.text? base = some BaseType.int32.name) := by
  cases h with
  | name hid =>
      obtain ⟨binding, hbound, rfl⟩ := htype.of_holds hid
      obtain ⟨htext, rfl⟩ := standardConstants_eq_some_iff.mp hbound
      exact ⟨rfl, fun _ => htext⟩
  | function hid _ => exact ⟨htype.of_holds hid, by simp⟩

theorem SpellsValue.typed (h : u.SpellsValue id value) {type : TypeId}
    (htype : u.Typed (standardConstants names) id type) :
    ∃ kind, value.kind names = .ok kind ∧ type = kind.typeId := by
  cases h with
  | literal hid => exact ⟨.int32, rfl, htype.of_holds hid⟩
  | @type written hspells =>
      obtain ⟨heq, hname⟩ := Spells.typed hspells htype
      refine ⟨.type, if_neg ?_, heq⟩
      rintro ⟨hopens, hnot⟩
      exact hnot (hname (by rw [hopens, List.reverse_nil]))

/-- The name of a value that is a name out of scope. -/
theorem SpellsValue.kind_of_name (h : u.SpellsValue id value) {name : Name} {pos : Position}
    (hname : u.Holds id (.name name) pos) (hnone : standardConstants names name = none) :
    value.kind names = .error (.unknownName name pos) := by
  cases h with
  | literal hid => cases (hid.unique hname).1
  | @type written hspells =>
      obtain ⟨opens, base, basePos⟩ := written
      rw [SpellsType] at hspells
      dsimp only at hspells
      generalize hopens : opens.reverse = outer at hspells
      cases hspells with
      | name hid =>
          obtain ⟨hexpr, rfl⟩ := hid.unique hname
          cases hexpr
          refine if_pos ⟨List.reverse_eq_nil_iff.mp hopens, fun htext => ?_⟩
          rw [standardConstants, if_pos htext] at hnone
          cases hnone
      | function hid _ => cases (hid.unique hname).1

/-- A return that is reached from two spelled items is the body of both. -/
theorem ItemsApart.eq_of_returnsTo (h : u.ItemsApart) {a b : ItemId} {f g : FunctionItem}
    (ha : u.HoldsItem a f) (hb : u.HoldsItem b g) (hreturns : u.ReturnsTo f.body g.body) :
    a = b := by
  obtain ⟨header, statement, hf⟩ := h.spelled a f ha
  obtain ⟨header', statement', hg⟩ := h.spelled b g hb
  obtain ⟨inner, hbody, hvalue⟩ := hf.body
  obtain ⟨inner', hbody', -⟩ := hg.body
  obtain ⟨outer, htrail⟩ := hreturns
  refine h.apart a b f g ha hb ?_
  rcases htrail.eq_or_exists with heq | ⟨next, rest, hnext, hrest⟩
  · exact heq.symm
  · obtain ⟨pos, hother⟩ := returnedValue?_eq_some_iff.mp hnext
    cases (hbody.unique hother).1
    -- the value is no return, so the trail ends at it and not at the other body
    rcases hrest.eq_or_exists with heq | ⟨next, rest, hnext, -⟩
    · exact absurd (heq ▸ hbody') (hvalue.not_return _ _)
    · obtain ⟨pos, hother⟩ := returnedValue?_eq_some_iff.mp hnext
      exact absurd hother (hvalue.not_return _ _)

end CompilationUnit

/-! ## Bodies -/

namespace Checker

open CompilationUnit

variable {u : CompilationUnit hash} {c : Checker hash} {id body inner : ExprId}
  {names : Interner hash.text} {value : ValueSyntax} {result : TypeSyntax} {pos : Position}
  {expected : TypeId}

theorem typeOfValue_spells (h : u.Sound (standardConstants names))
    (hfits : c.Fits (standardConstants names))
    (hlookup : ∀ name, c.scopes.lookup name = standardConstants names name)
    (hvalue : u.SpellsValue id value) :
    ∃ answer, c.typeOfValue u id = .ok answer ∧ answer.unit.Sound (standardConstants names) ∧
      u.Asked answer.unit ∧
      (∀ other, other ≠ id → answer.unit.findingsOf other = u.findingsOf other) ∧
      answer.value = (value.kind names).map BaseType.typeId := by
  have hstop : pendingValue? u id = none := by
    rw [Option.eq_none_iff_forall_ne_some]
    intro inner hinner
    obtain ⟨-, pos, hreturn⟩ := pendingValue?_eq_some_iff.mp hinner
    exact hvalue.not_return inner pos hreturn
  obtain ⟨answer, hanswer, hsound, hasked, hothers, hcases⟩ :=
    typeOfValue_spec h hfits hvalue.lt hstop
  refine ⟨answer, hanswer, hsound, hasked, hothers, ?_⟩
  rcases hcases with ⟨type, hok, htype⟩ | ⟨-, name, pos, herror, hname, hnone⟩
  · obtain ⟨kind, hkind, rfl⟩ := (hasked.spellsValue hvalue).typed (hsound.typed id type htype)
    rw [hok, hkind]
    rfl
  · rw [herror, hvalue.kind_of_name hname (by rw [← hlookup, hnone])]
    rfl

/-- A return whose type is not found yet has its value typed first. -/
theorem typeOf_return (h : u.Sound (standardConstants names))
    (hreturn : c.returnType = some expected)
    (hbody : u.Holds body (.return_ inner) pos) (hvalue : u.SpellsValue inner value)
    (hnone : (u.findingsOf body).type = none) :
    c.typeOf u body = (c.typeOfValue u inner).bind fun answer =>
      answer.andThen fun actual u => typeReturns u expected inner actual [body] := by
  have hpending : pendingValue? u body = some inner :=
    pendingValue?_eq_some_iff.mpr ⟨hnone, pos, hbody⟩
  have hstop : pendingValue? u inner = none := by
    rw [Option.eq_none_iff_forall_ne_some]
    intro next hnext
    obtain ⟨-, pos', hnested⟩ := pendingValue?_eq_some_iff.mp hnext
    exact hvalue.not_return next pos' hnested
  have hreached : body.descend (pendingValue? u) [] = ([body], inner) := by
    rw [ExprId.descend_of_trail (pendingValue?_leadsDown h) (.out hpending (.stay body)),
      ExprId.descend_of_none hstop, List.append_nil]
  rw [typeOf_inside hreturn hbody.lt, hreached]

theorem typeReturns_single (h : u.Sound (standardConstants names)) (hid : id.index < u.exprs.size)
    (hnone : (u.findingsOf id).type = none) {actual : TypeId}
    (hexpected : expected.index < u.types.size) (hactual : actual.index < u.types.size)
    (source : ExprId) :
    ∃ answer, typeReturns u expected source actual [id] = .ok answer ∧ u.Grown answer.unit ∧
      answer.value = if u.sameType expected actual then .ok BaseType.never.typeId
        else .error (.mismatch expected actual (u.expr source).pos) := by
  have hcompare := compareTypes_of_lt hexpected hactual
  by_cases hsame : u.sameType expected actual
  · obtain ⟨v, hv⟩ := exists_record .type (h.findings_size ▸ hid) hnone BaseType.never.typeId
    refine ⟨⟨.ok BaseType.never.typeId, v⟩, ?_, (recorded_record hv).toGrown, by rw [if_pos hsame]⟩
    simp only [typeReturns, hcompare, hsame, hv]
    rfl
  · refine ⟨⟨.error (.mismatch expected actual (u.expr source).pos), u⟩, ?_, .refl u,
      by rw [if_neg hsame]⟩
    simp only [typeReturns, hcompare, hsame]
    rfl

/-- What a check says about the type of a value is the verdict on this value. -/
theorem spelled_eq_verdict {kind : BaseType} (h : u.Sound (standardConstants names))
    (hkind : value.kind names = .ok kind) (hshape : u.Shape expected result.opens.length .int32)
    {answer : Answer hash TypeId} (hanswer : answer.value =
      if u.sameType expected kind.typeId then .ok BaseType.never.typeId
      else .error (.mismatch expected kind.typeId value.pos))
    (hgrown : u.Grown answer.unit) (hdescend : answer.unit.TypesDescend) :
    Answer.spelled ⟨answer.value.map fun _ => (), answer.unit⟩ = value.verdict names result := by
  have hbase : u.Shape kind.typeId 0 kind := .base (h.baseTypes kind)
  have hspelled : (TypingError.mismatch expected kind.typeId value.pos).spelled answer.unit =
      .mismatch result.int32Text kind.name value.pos := by
    rw [TypingError.spelled, hdescend.spellType_eq (hgrown.shape hshape),
      hdescend.spellType_eq (hgrown.shape hbase), List.replicate_zero, String.join_nil,
      String.empty_append, TypeSyntax.int32Text]
  have hsame := h.typesDescend.sameType_iff hshape hbase
  rw [Answer.spelled, hanswer]
  cases value with
  | literal number pos =>
      cases hkind
      by_cases hopens : result.opens = []
      · rw [if_pos (hsame.mpr ⟨by rw [hopens, List.length_nil], rfl⟩), ValueSyntax.verdict,
          if_pos hopens]
        rfl
      · have hlength : result.opens.length ≠ 0 := fun hzero =>
          hopens (List.length_eq_zero_iff.mp hzero)
        rw [if_neg (fun hok => hlength (hsame.mp hok).1), ValueSyntax.verdict, if_neg hopens]
        exact congrArg Except.error hspelled
  | type written =>
      rw [ValueSyntax.kind] at hkind
      split at hkind
      · cases hkind
      · rename_i hname
        cases hkind
        rw [if_neg (fun hok => by cases (hsame.mp hok).2), ValueSyntax.verdict, if_neg hname]
        exact congrArg Except.error hspelled

/-- The check of a return whose type is not found yet follows the verdict on its value. -/
theorem checkBody_verdict (h : u.Sound (standardConstants names))
    (hfits : c.Fits (standardConstants names))
    (hlookup : ∀ name, c.scopes.lookup name = standardConstants names name)
    (hshape : u.Shape expected result.opens.length .int32)
    (hbody : u.Holds body (.return_ inner) pos) (hvalue : u.SpellsValue inner value)
    (hnone : (u.findingsOf body).type = none) :
    ∃ answer d, c.checkBody u expected body = .ok (answer, d) ∧
      (answer.unit.TypesDescend → answer.spelled = value.verdict names result) := by
  obtain ⟨first, hfirst, hsound, hasked, hothers, hkind⟩ :=
    typeOfValue_spells h (hfits.inside expected)
      (fun name => (hfits.scopes.lookup_push name).trans (hlookup name)) hvalue
  obtain ⟨scopes, hpop, -, -⟩ := hfits.scopes.pop_push
  have htypeOf := typeOf_return h
    (rfl : (⟨c.scopes.push, some expected⟩ : Checker hash).returnType = _)
    hbody hvalue hnone
  rw [hfirst] at htypeOf
  cases hvalueKind : value.kind names with
  | error e =>
      rw [hvalueKind] at hkind
      refine ⟨⟨.error e, first.unit⟩, ⟨scopes, c.returnType⟩, ?_, fun _ => ?_⟩
      · simp only [checkBody, htypeOf, hpop, Bind.bind, Except.bind, Answer.andThen_of_error hkind]
        rfl
      · rw [ValueSyntax.verdict_of_kind_error hvalueKind first.unit]
        rfl
  | ok kind =>
      rw [hvalueKind] at hkind
      have hne : body ≠ inner := by
        rintro rfl
        exact hvalue.not_return _ _ hbody
      obtain ⟨last, hlast, hgrown, hlastValue⟩ := typeReturns_single hsound
        (hasked.holds hbody).lt (by rw [hothers body hne, hnone]) (hasked.shape hshape).lt
        (hsound.baseTypes kind).lt inner
      rw [(hasked.spellsValue hvalue).pos_eq] at hlastValue
      refine ⟨⟨last.value.map fun _ => (), last.unit⟩, ⟨scopes, c.returnType⟩, ?_,
        spelled_eq_verdict hsound hvalueKind (hasked.shape hshape) hlastValue hgrown⟩
      simp only [checkBody, htypeOf, hpop, Bind.bind, Except.bind, Answer.andThen_of_ok hkind,
        hlast]
      rfl

theorem checkBody_of_typed (hfits : c.Fits (standardConstants names))
    (hid : body.index < u.exprs.size) {type : TypeId}
    (hfound : (u.findingsOf body).type = some type) (expected : TypeId) :
    ∃ d, c.checkBody u expected body = .ok (⟨.ok (), u⟩, d) := by
  have hstop : pendingValue? u body = none := by
    rw [Option.eq_none_iff_forall_ne_some]
    intro inner hinner
    rw [(pendingValue?_eq_some_iff.mp hinner).1] at hfound
    cases hfound
  obtain ⟨scopes, hpop, -, -⟩ := hfits.scopes.pop_push
  refine ⟨⟨scopes, c.returnType⟩, ?_⟩
  simp only [checkBody, typeOf_of_not_pending hid hstop, typeOfValue, hfound, hpop, Bind.bind,
    Except.bind]
  rfl

/-! ## Items -/

variable {item : ItemId} {function : FunctionItem} {header : HeaderSyntax}
  {statement : StatementSyntax}

/-- The return type of a signature that is spelled follows the verdict on it. -/
theorem returnTypeOf_spells (h : u.Sound (standardConstants names))
    (hfits : c.Fits (standardConstants names))
    (hlookup : ∀ name, c.scopes.lookup name = standardConstants names name)
    (hout : c.returnType = none) (hspells : u.SpellsItem function header statement) :
    ∃ answer, c.returnTypeOf u function.signature = .ok answer ∧
      answer.unit.Sound (standardConstants names) ∧ u.Asked answer.unit ∧
      ((header.result.verdict names = .ok () ∧ ∃ expected, answer.value = .ok expected ∧
        answer.unit.Shape expected header.result.opens.length .int32) ∨
      ∃ e, answer.value = .error e ∧
        header.result.verdict names = .error (e.spelled answer.unit)) := by
  have hsignature := hspells.signature
  rcases returnTypeOf_spec h hfits hout hsignature.lt with
    ⟨kind, -, hnot⟩ | ⟨answer, hanswer, hsound, hasked, hcases⟩
  · cases hsignature with
    | function hholds _ => exact absurd hholds (hnot _ _)
  refine ⟨answer, hanswer, hsound, hasked, ?_⟩
  have hsignature' := hasked.spells hsignature
  rcases hcases with ⟨form, type, expected, hok, hform, htype, hnode⟩ | ⟨e, herror, hbad⟩
  · obtain ⟨htext, hshape⟩ := declaredReturn_of_spells hsound hsignature' hform htype hnode
    rw [List.length_reverse] at hshape
    exact .inl ⟨if_pos htext, expected, hok, hshape⟩
  · refine .inr ⟨e, herror, ?_⟩
    cases hbad with
    | unknownName leaf name pos hsame heq hleaf hholds hscope =>
        obtain ⟨outer, htrail⟩ := hleaf.trail
        obtain ⟨rfl, rfl⟩ := hsignature.name_eq htrail hholds
        rw [heq]
        refine if_neg fun htext => ?_
        rw [hlookup, standardConstants, if_pos htext] at hscope
        cases hscope
    | noFunctionType form hform hnone =>
        obtain ⟨binding, evaluated, hbound, rfl, hwraps⟩ :=
          hsignature'.form (hsound.forms _ _ hform)
        obtain ⟨-, rfl⟩ := standardConstants_eq_some_iff.mp hbound
        cases hwraps with
        | function hholds hinner =>
            obtain ⟨type, heq, -⟩ := (Wraps.function hholds hinner).denotes hsound
              (hsound.baseExprs .int32) (hnone evaluated _ _ rfl hholds)
            cases heq

/-- The check of an item that is spelled follows the verdict on it, if its return has no type yet,
and else the one on its signature. -/
theorem check_spells (h : u.Sound (standardConstants names))
    (hfits : c.Fits (standardConstants names))
    (hlookup : ∀ name, c.scopes.lookup name = standardConstants names name)
    (hout : c.returnType = none) (hitem : u.HoldsItem item function)
    (hspells : u.SpellsItem function header statement) :
    ∃ answer d, c.check u item = .ok (answer, d) ∧
      answer.spelled = if (u.findingsOf function.body).type = none then
        itemVerdict names header.result statement.value else header.result.verdict names := by
  obtain ⟨inner, hbody, hvalue⟩ := hspells.body
  obtain ⟨answer, d, hanswer, hsoundAfter, -⟩ :=
    check_answered_of_spells h hfits hout hitem hspells
  refine ⟨answer, d, hanswer, ?_⟩
  obtain ⟨first, hfirst, hsound, hasked, hcases⟩ :=
    returnTypeOf_spells h hfits hlookup hout hspells
  have hslot := hasked.returnType_eq _ _ _ hbody
  simp only [check, checkIndex_of_lt hitem.lt, hitem.item_eq, hfirst, Bind.bind, Except.bind]
    at hanswer
  rcases hcases with ⟨hverdict, expected, hok, hshape⟩ | ⟨e, herror, hverdict⟩
  · simp only [hok] at hanswer
    rw [itemVerdict, hverdict]
    cases hfound : (u.findingsOf function.body).type with
    | none =>
        rw [if_pos rfl]
        obtain ⟨answer', d', hanswer', hspelled⟩ := checkBody_verdict hsound hfits hlookup hshape
          (hasked.holds hbody) (hasked.spellsValue hvalue) (hslot.trans hfound)
        rw [hanswer'] at hanswer
        cases hanswer
        exact hspelled hsoundAfter.typesDescend
    | some type =>
        rw [if_neg (by simp)]
        obtain ⟨d', hanswer'⟩ := checkBody_of_typed hfits (hasked.holds hbody).lt
          (hslot.trans hfound) expected
        rw [hanswer'] at hanswer
        cases hanswer
        rfl
  · simp only [herror] at hanswer
    cases hanswer
    rw [itemVerdict, hverdict]
    split <;> rfl

/-- A return that only one item reaches was typed for this item, which then passes. -/
theorem itemVerdict_of_typed (h : u.Sound (standardConstants names))
    (hitem : u.HoldsItem item function) (hspells : u.SpellsItem function header statement)
    (honly : ∀ other otherFunction, u.HoldsItem other otherFunction →
      u.ReturnsTo otherFunction.body function.body → other = item) {type : TypeId}
    (hfound : (u.findingsOf function.body).type = some type) :
    itemVerdict names header.result statement.value = .ok () ∧
      header.result.verdict names = .ok () := by
  obtain ⟨inner, hbody, hvalue⟩ := hspells.body
  obtain ⟨actual, expected, other, otherFunction, hactual, hother, hreturns, hdeclared, halike⟩ :=
    (h.typed _ _ hfound).exists_item hbody
  obtain rfl := honly other otherFunction hother hreturns
  obtain rfl : function = otherFunction := by
    rw [← hitem.item_eq, hother.item_eq]
  obtain ⟨form, declared, hform, htype, hnode⟩ := declaredReturn?_eq_some_iff.mp hdeclared
  obtain ⟨htext, hshape⟩ := declaredReturn_of_spells h hspells.signature hform htype hnode
  obtain ⟨kind, hkind, rfl⟩ := hvalue.typed (h.typed _ _ hactual)
  obtain ⟨depth, kind', hexpected, hactualShape⟩ := halike
  obtain ⟨rfl, rfl⟩ := hactualShape.unique (.base (h.baseTypes kind))
  obtain ⟨hlength, rfl⟩ := hshape.unique hexpected
  have hresult : header.result.verdict names = .ok () := if_pos htext
  refine ⟨?_, hresult⟩
  rw [itemVerdict, hresult]
  generalize statement.value = value at hkind
  cases value with
  | literal number pos =>
      rw [List.length_reverse, List.length_eq_zero_iff] at hlength
      exact if_pos hlength
  | type written =>
      rw [ValueSyntax.kind] at hkind
      split at hkind <;> cases hkind

end Checker

end FrontEnd
