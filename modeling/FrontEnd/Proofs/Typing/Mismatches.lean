import FrontEnd.Proofs.SessionItems
import FrontEnd.Proofs.Typing.Answers
import FrontEnd.Proofs.Typing.Repetition
import FrontEnd.Proofs.Typing.SpelledTypes

/-! # Errors that find what they expect

A mismatch says that one type was expected and another one found. There is one exception: where
function type expressions stand around a literal or a return, an error about a result that is a
function type expression itself expects a type of types, and finds one. -/

namespace FrontEnd

variable {hash : Hasher}

/-- The error of an answer expects a type and finds an equal one. -/
def Answer.FindsExpected {α : Type} (answer : Answer hash α) : Prop :=
  ∃ expected actual pos, answer.value = .error (.mismatch expected actual pos) ∧
    answer.unit.sameType expected actual = true

namespace CompilationUnit

variable {constants : Constants} {u v : CompilationUnit hash} {id leaf : ExprId} {depth : Nat}
  {form : Option ExprId} {names : Interner hash.text}

/-! ## Function type expressions around what is no type -/

/-- Literals and returns stand for no type. -/
inductive NoType (u : CompilationUnit hash) : ExprId → Prop where
  | literal {id value pos} : u.Holds id (.intLiteral value) pos → NoType u id
  | return_ {id value pos} : u.Holds id (.return_ value) pos → NoType u id

/-- An expression is two or more function type expressions around what is no type. -/
def WrapsNoType (u : CompilationUnit hash) (id : ExprId) : Prop :=
  ∃ depth leaf, u.Wraps id (depth + 2) leaf ∧ u.NoType leaf

theorem NoType.lt (h : u.NoType id) : id.index < u.exprs.size := by
  cases h with
  | literal hid => exact hid.lt
  | return_ hid => exact hid.lt

theorem NoType.not_function (h : u.NoType id) (result : ExprId) (pos : Position) :
    ¬ u.Holds id (.functionType result) pos := by
  intro hfunction
  cases h with
  | literal hid => cases (hid.unique hfunction).1
  | return_ hid => cases (hid.unique hfunction).1

theorem NoType.not_name (h : u.NoType id) (name : Name) (pos : Position) :
    ¬ u.Holds id (.name name) pos := by
  intro hname
  cases h with
  | literal hid => cases (hid.unique hname).1
  | return_ hid => cases (hid.unique hname).1

theorem Grown.noType_iff (hgrown : u.Grown v) (hid : id.index < u.exprs.size) :
    v.NoType id ↔ u.NoType id := by
  constructor
  · rintro (hholds | hholds)
    · exact .literal ((hgrown.holds_iff hid).mp hholds)
    · exact .return_ ((hgrown.holds_iff hid).mp hholds)
  · rintro (hholds | hholds)
    · exact .literal (hgrown.holds hholds)
    · exact .return_ (hgrown.holds hholds)

theorem Wraps.lt (h : u.Sound constants) (hwraps : u.Wraps id depth leaf)
    (hid : id.index < u.exprs.size) : leaf.index < u.exprs.size := by
  induction hwraps with
  | stay id => exact hid
  | function hholds _ ih =>
      exact ih (Nat.lt_trans (h.exprsDescend _ _ (child?_of_holds hholds)) hid)

theorem Grown.wraps_iff (hgrown : u.Grown v) (h : u.Sound constants)
    (hid : id.index < u.exprs.size) : v.Wraps id depth leaf ↔ u.Wraps id depth leaf := by
  constructor
  · intro hwraps
    induction hwraps with
    | stay id => exact .stay id
    | function hholds _ ih =>
        have hbefore := (hgrown.holds_iff hid).mp hholds
        exact .function hbefore
          (ih (Nat.lt_trans (h.exprsDescend _ _ (child?_of_holds hbefore)) hid))
  · intro hwraps
    induction hwraps with
    | stay id => exact .stay id
    | function hholds _ ih =>
        exact .function (hgrown.holds hholds)
          (ih (Nat.lt_trans (h.exprsDescend _ _ (child?_of_holds hholds)) hid))

theorem Grown.wrapsNoType_iff (hgrown : u.Grown v) (h : u.Sound constants)
    (hid : id.index < u.exprs.size) : v.WrapsNoType id ↔ u.WrapsNoType id := by
  constructor
  · rintro ⟨depth, leaf, hwraps, hleaf⟩
    have hbefore := (hgrown.wraps_iff h hid).mp hwraps
    exact ⟨depth, leaf, hbefore, (hgrown.noType_iff (hbefore.lt h hid)).mp hleaf⟩
  · rintro ⟨depth, leaf, hwraps, hleaf⟩
    exact ⟨depth, leaf, (hgrown.wraps_iff h hid).mpr hwraps,
      (hgrown.noType_iff (hwraps.lt h hid)).mpr hleaf⟩

theorem Wraps.trans {inner : ExprId} {depth' : Nat} (h : u.Wraps id depth inner)
    (h' : u.Wraps inner depth' leaf) : u.Wraps id (depth + depth') leaf := by
  induction h with
  | stay id => rwa [Nat.zero_add]
  | function hholds _ ih =>
      rw [Nat.add_right_comm]
      exact .function hholds (ih h')

theorem FunctionsTo.exists_wraps (h : u.FunctionsTo id leaf) : ∃ depth, u.Wraps id depth leaf := by
  obtain ⟨outer, htrail⟩ := h
  induction htrail with
  | stay id => exact ⟨0, .stay id⟩
  | out hnext _ ih =>
      obtain ⟨depth, hwraps⟩ := ih
      obtain ⟨pos, hholds⟩ := functionResult?_eq_some_iff.mp hnext
      exact ⟨depth + 1, hwraps.trans (.function hholds (.stay _))⟩

/-- There is one way inwards through function type expressions. -/
theorem Wraps.unique (hwraps : u.Wraps id depth leaf)
    (hleaf : ∀ result pos, ¬ u.Holds leaf (.functionType result) pos) {depth' : Nat}
    {leaf' : ExprId} (hwraps' : u.Wraps id depth' leaf')
    (hleaf' : ∀ result pos, ¬ u.Holds leaf' (.functionType result) pos) :
    depth = depth' ∧ leaf = leaf' := by
  induction hwraps generalizing depth' with
  | stay id =>
      cases hwraps' with
      | stay => exact ⟨rfl, rfl⟩
      | function hother _ => exact absurd hother (hleaf _ _)
  | function hholds _ ih =>
      cases hwraps' with
      | stay => exact absurd hholds (hleaf' _ _)
      | function hother hrest =>
          cases (hholds.unique hother).1
          obtain ⟨rfl, rfl⟩ := ih hleaf hrest
          exact ⟨rfl, rfl⟩

theorem Wraps.wrapsNoType_iff (hwraps : u.Wraps id depth leaf) (hleaf : u.NoType leaf) :
    u.WrapsNoType id ↔ 2 ≤ depth := by
  constructor
  · rintro ⟨depth', leaf', hwraps', hleaf'⟩
    obtain ⟨rfl, -⟩ := hwraps'.unique hleaf'.not_function hwraps hleaf.not_function
    omega
  · intro hle
    obtain ⟨depth, rfl⟩ : ∃ d, depth = d + 2 := ⟨depth - 2, by omega⟩
    exact ⟨depth, leaf, hwraps, hleaf⟩

theorem WrapsNoType.not_name (h : u.WrapsNoType id) (hleaf : u.FunctionsTo id leaf) (name : Name)
    (pos : Position) : ¬ u.Holds leaf (.name name) pos := by
  intro hname
  obtain ⟨depth, inside, hwraps, hinside⟩ := h
  obtain ⟨depth', hwraps'⟩ := hleaf.exists_wraps
  have hnot : ∀ result pos, ¬ u.Holds leaf (.functionType result) pos := fun _ _ hother => by
    cases (hname.unique hother).1
  obtain ⟨-, rfl⟩ := hwraps.unique hinside.not_function hwraps' hnot
  exact hinside.not_name _ _ hname

/-! ## What is found about them -/

/-- What is no type does not have the type of types. -/
theorem NoType.not_alike (h : u.Sound constants) (hid : u.NoType id) {type : TypeId}
    (htyped : u.Typed constants id type) : ¬ u.Alike type BaseType.type.typeId := by
  rintro ⟨depth, kind, hshape, htype⟩
  obtain ⟨rfl, rfl⟩ := htype.unique (.base (h.baseTypes .type))
  have hkind : ∃ kind : BaseType, kind ≠ .type ∧ type = kind.typeId := by
    cases hid with
    | literal hholds => exact ⟨.int32, by decide, htyped.of_holds hholds⟩
    | return_ hholds => exact ⟨.never, by decide, (htyped.of_holds hholds).1⟩
  obtain ⟨kind, hne, rfl⟩ := hkind
  exact hne (hshape.unique (.base (h.baseTypes kind))).2.symm

theorem NoType.denotes (h : u.NoType id) {type? : Option TypeId} (htype : u.Denotes id type?) :
    type? = none := by
  cases h with
  | literal hid => exact htype.of_holds hid
  | return_ hid => exact htype.of_holds hid

theorem Wraps.noType_denotes (hwraps : u.Wraps id depth leaf) (hleaf : u.NoType leaf)
    {type? : Option TypeId} (htype : u.Denotes id type?) : type? = none := by
  induction hwraps generalizing type? with
  | stay id => exact hleaf.denotes htype
  | function hholds _ ih =>
      obtain ⟨rfl, -⟩ | ⟨inner, type, -, hresult, -⟩ := htype.of_holds hholds
      · rfl
      · cases ih hleaf hresult

/-- The constant form has what is no type as deep inside. -/
theorem Wraps.noType_form (hwraps : u.Wraps id depth leaf) (hleaf : u.NoType leaf)
    (hform : u.Form constants id form) : u.Wraps (form.getD id) depth leaf := by
  induction hwraps generalizing form with
  | stay id =>
      cases hleaf with
      | literal hid =>
          rw [hform.of_holds hid]
          exact .stay id
      | return_ hid =>
          rw [hform.of_holds hid]
          exact .stay id
  | function hholds hrest ih =>
      obtain ⟨rfl, -⟩ | ⟨inner, made, rfl, hresult, hmade⟩ := hform.of_holds hholds
      · exact .function hholds hrest
      · exact .function hmade (ih hleaf hresult)

/-- A constant form that denotes no type has what is no type inside, as deep as the expression. -/
theorem Form.exists_wraps (h : u.Sound (standardConstants names))
    (hform : u.Form (standardConstants names) id form) (hnone : u.Denotes (form.getD id) none) :
    ∃ depth leaf, u.Wraps id depth leaf ∧ u.Wraps (form.getD id) depth leaf ∧ u.NoType leaf := by
  induction hform with
  | literal hid => exact ⟨0, _, .stay _, .stay _, .literal hid⟩
  | return_ hid => exact ⟨0, _, .stay _, .stay _, .return_ hid⟩
  | baseType hid => cases hnone.of_holds hid
  | name hid hbound =>
      obtain ⟨-, rfl⟩ := standardConstants_eq_some_iff.mp hbound
      cases hnone.of_holds (h.baseExprs .int32)
  | function hid _ hmade ih =>
      obtain ⟨-, hresult⟩ | ⟨inner, type, heq, -⟩ := hnone.of_holds hmade
      · obtain ⟨depth, leaf, hwraps, hform, hleaf⟩ := ih hresult
        exact ⟨depth + 1, leaf, .function hid hwraps, .function hmade hform, hleaf⟩
      · cases heq
  | formless hid _ ih =>
      obtain ⟨-, hresult⟩ | ⟨inner, type, heq, -⟩ := hnone.of_holds hid
      · obtain ⟨depth, leaf, hwraps, -, hleaf⟩ := ih hresult
        exact ⟨depth + 1, leaf, .function hid hwraps, .function hid hwraps, hleaf⟩
      · cases heq

end CompilationUnit

namespace Checker

open CompilationUnit

variable {constants : Constants} {u v : CompilationUnit hash} {c : Checker hash}
  {id signature : ExprId} {form : Option ExprId} {names : Interner hash.text}

/-! ## Types of expressions -/

theorem not_findsExpected_of_ok {α : Type} {answer : Answer hash α} {value : α}
    (h : answer.value = .ok value) : ¬ answer.FindsExpected := by
  rintro ⟨expected, actual, pos, herror, -⟩
  cases h.symm.trans herror

theorem not_findsExpected_of_unknownName {α : Type} {answer : Answer hash α} {name : Name}
    {pos : Position} (h : answer.value = .error (.unknownName name pos)) :
    ¬ answer.FindsExpected := by
  rintro ⟨expected, actual, pos', herror, -⟩
  cases h.symm.trans herror

theorem typeReturns_not_findsExpected {expected : TypeId} {value : ExprId} {actual : TypeId}
    {outer : List ExprId} {answer : Answer hash TypeId}
    (hok : typeReturns u expected value actual outer = .ok answer) : ¬ answer.FindsExpected := by
  induction outer generalizing u value actual with
  | nil =>
      cases hok
      exact not_findsExpected_of_ok rfl
  | cons next rest ih =>
      obtain ⟨-, hok⟩ := compareTypes_bind_eq_ok_iff.mp hok
      split at hok
      · obtain ⟨w, -, hok⟩ := Except.bind_eq_ok_iff.mp hok
        exact ih hok
      · rename_i hnot
        cases hok
        rintro ⟨_, _, _, ⟨⟩, hsame⟩
        exact hnot hsame

theorem typeOfValue_not_findsExpected {answer : Answer hash TypeId}
    (hok : c.typeOfValue u id = .ok answer) : ¬ answer.FindsExpected := by
  unfold typeOfValue at hok
  split at hok
  · cases hok
    exact not_findsExpected_of_ok rfl
  · split at hok
    · rename_i e hleaf
      obtain ⟨name, -, rfl⟩ := leafType_eq_error hleaf
      cases hok
      exact not_findsExpected_of_unknownName rfl
    · rename_i type hleaf
      cases hrecord : u.record .type id type with
      | error breach =>
          rw [hrecord] at hok
          cases hok
      | ok w =>
          rw [hrecord] at hok
          cases hok
          exact not_findsExpected_of_ok rfl

theorem andThen_not_findsExpected {α β : Type} {answer : Answer hash α} {last : Answer hash β}
    {next : α → CompilationUnit hash → Except Breach (Answer hash β)}
    (hok : answer.andThen next = .ok last) (h : ¬ answer.FindsExpected)
    (hnext : ∀ value, answer.value = .ok value →
      next value answer.unit = .ok last → ¬ last.FindsExpected) : ¬ last.FindsExpected := by
  cases hvalue : answer.value with
  | ok value =>
      rw [Answer.andThen_of_ok hvalue] at hok
      exact hnext value hvalue hok
  | error e =>
      rw [Answer.andThen_of_error hvalue] at hok
      cases hok
      rintro ⟨expected, actual, pos, herror, hsame⟩
      cases herror
      exact h ⟨expected, actual, pos, hvalue, hsame⟩

theorem typeOf_not_findsExpected {answer : Answer hash TypeId} (hok : c.typeOf u id = .ok answer) :
    ¬ answer.FindsExpected := by
  unfold typeOf at hok
  obtain ⟨-, hok⟩ := checkIndex_bind_eq_ok_iff.mp hok
  generalize id.descend (pendingValue? u) [] = reached at hok
  obtain ⟨outer, value⟩ := reached
  cases outer with
  | nil => exact typeOfValue_not_findsExpected hok
  | cons next rest =>
      cases hreturn : c.returnType with
      | none =>
          simp only [hreturn] at hok
          cases hok
          rintro ⟨_, _, _, ⟨⟩, -⟩
      | some expected =>
          simp only [hreturn] at hok
          obtain ⟨answer', hvalue, hok⟩ := Except.bind_eq_ok_iff.mp hok
          exact andThen_not_findsExpected hok (typeOfValue_not_findsExpected hvalue)
            fun _ _ => typeReturns_not_findsExpected

/-! ## Signatures -/

/-- The type that is found for what is no type is not that of types. -/
theorem typeOf_noType (h : u.Sound constants) (hfits : c.Fits constants)
    (hout : c.returnType = none) (hid : u.NoType id) {answer : Answer hash TypeId}
    (hok : c.typeOf u id = .ok answer) {found : TypeId} (hfound : answer.value = .ok found) :
    ¬ answer.unit.sameType BaseType.type.typeId found = true := by
  intro hsame
  obtain ⟨answer', hanswer, hsound, hqueried, -, hcases⟩ :=
    typeOf_spec h hfits hid.lt (inside_of_outside hout)
  obtain rfl : answer' = answer := Except.ok.inj (hanswer.symm.trans hok)
  rcases hcases with ⟨found', hfound', hslot, -⟩ | ⟨e, herror⟩
  · obtain rfl : found' = found := Except.ok.inj (hfound'.symm.trans hfound)
    have htyped := hsound.typed _ _ hslot
    have halike := (hsound.typesDescend.sameType_iff_alike (hsound.baseTypes .type).lt
      (typed_lt hsound htyped)).mp hsame
    exact ((hqueried.toGrown.noType_iff hid.lt).mpr hid).not_alike hsound htyped halike.symm
  · cases herror.symm.trans hfound

/-- Where a constant form denotes no type, the error about its result finds what it expects exactly
if this result is a function type expression. -/
theorem denotationError_findsExpected_iff (h : u.Sound (standardConstants names))
    (hfits : c.Fits (standardConstants names)) (hout : c.returnType = none)
    (hform : u.Form (standardConstants names) signature form)
    (hnone : u.Denotes (form.getD signature) none) {type : TypeId}
    (htyped : (u.findingsOf (form.getD signature)).type = some type)
    (htype : u.Alike type BaseType.type.typeId) {answer : Answer hash TypeId}
    (hok : c.denotationError u (form.getD signature) = .ok answer) :
    answer.FindsExpected ↔ u.WrapsNoType signature := by
  obtain ⟨depth, leaf, hsignature, hevaluated, hleaf⟩ := hform.exists_wraps h hnone
  rw [hsignature.wrapsNoType_iff hleaf]
  unfold denotationError at hok
  generalize form.getD signature = evaluated at hevaluated htyped hok
  cases hevaluated with
  | stay => exact absurd htype (hleaf.not_alike h (h.typed _ _ htyped))
  | @function _ result _ depth pos hholds hrest =>
      simp only [functionResult?_eq_some_iff.mpr ⟨pos, hholds⟩, Option.getD_some] at hok
      cases hrest with
      | stay =>
          refine iff_of_false ?_ (by omega)
          cases hactual : c.typeOf u leaf with
          | error breach =>
              simp only [hactual, Bind.bind, Except.bind] at hok
              cases hok
          | ok actual =>
              simp only [hactual, Bind.bind, Except.bind] at hok
              refine andThen_not_findsExpected hok (typeOf_not_findsExpected hactual) ?_
              rintro found hfound ⟨⟩ ⟨_, _, _, ⟨⟩, hsame⟩
              exact typeOf_noType h hfits hout hleaf hactual hfound hsame
      | function hinner hrest =>
          refine iff_of_true ?_ (by omega)
          obtain ⟨actual, hactual, htype, -⟩ := typeOf_functionType h hfits hinner
          simp only [hactual, Bind.bind, Except.bind, Answer.andThen_of_ok htype] at hok
          cases hok
          exact ⟨_, _, _, rfl, sameType_self _ _⟩

theorem denotedReturnType_findsExpected_iff (h : u.Sound (standardConstants names))
    (hfits : c.Fits (standardConstants names)) (hout : c.returnType = none)
    (hid : signature.index < u.exprs.size)
    (hform : (u.findingsOf signature).constantForm = some form) {type : TypeId}
    (htyped : (u.findingsOf (form.getD signature)).type = some type)
    (htype : u.Alike type BaseType.type.typeId) {answer : Answer hash TypeId}
    (hok : c.denotedReturnType u (form.getD signature) = .ok answer) :
    answer.FindsExpected ↔ u.WrapsNoType signature := by
  obtain ⟨type?, v, hv, hsound, hasked, hfound⟩ := denotedType_spec h (h.evaluated_lt hid hform)
  have hformAfter := (h.forms _ _ hform).mono hasked.toGrown (.refl _)
  have hdenotes := hsound.denoted _ _ hfound
  rw [← hasked.toGrown.wrapsNoType_iff h hid]
  unfold denotedReturnType at hok
  simp only [hv, Bind.bind, Except.bind] at hok
  cases type? with
  | none =>
      exact denotationError_findsExpected_iff hsound hfits hout hformAfter hdenotes
        ((hasked.findings _).type _ htyped) (hasked.toGrown.alike htype) hok
  | some found =>
      refine iff_of_false ?_ ?_
      · obtain ⟨-, hok⟩ := checkIndex_bind_eq_ok_iff.mp hok
        split at hok
        · cases hok
          exact not_findsExpected_of_ok rfl
        · cases hok
      · rintro ⟨depth, leaf, hwraps, hleaf⟩
        cases (hwraps.noType_form hleaf hformAfter).noType_denotes hleaf hdenotes

/-- What wraps no type is a function type expression, and so is its constant form. -/
theorem typeOf_of_wrapsNoType (h : u.Sound constants) (hfits : c.Fits constants)
    (hform : (u.findingsOf id).constantForm = some form) (hwraps : u.WrapsNoType id)
    {answer : Answer hash TypeId} (hok : c.typeOf u (form.getD id) = .ok answer) :
    answer.value = .ok BaseType.type.typeId := by
  obtain ⟨depth, leaf, hwraps, hleaf⟩ := hwraps
  have hwrapsForm := hwraps.noType_form hleaf (h.forms _ _ hform)
  generalize form.getD id = evaluated at hwrapsForm hok
  cases hwrapsForm with
  | function hholds _ =>
      obtain ⟨answer', hanswer', htype, -⟩ := typeOf_functionType h hfits hholds
      obtain rfl : answer' = answer := Except.ok.inj (hanswer'.symm.trans hok)
      exact htype

/-- A type that is not that of types is not the one expected of a signature. -/
theorem not_findsExpected_of_not_sameType (h : u.Sound constants) {type : TypeId}
    (htyped : (u.findingsOf id).type = some type)
    (hnot : ¬ u.sameType type BaseType.type.typeId = true) (pos : Position) :
    ¬ Answer.FindsExpected
      (⟨.error (.mismatch BaseType.type.typeId type pos), u⟩ : Answer hash TypeId) := by
  rintro ⟨_, _, _, ⟨⟩, hequal⟩
  have hlt := typed_lt h (h.typed _ _ htyped)
  have halike :=
    (h.typesDescend.sameType_iff_alike (h.baseTypes .type).lt hlt).mp hequal
  exact hnot ((h.typesDescend.sameType_iff_alike hlt (h.baseTypes .type).lt).mpr halike.symm)

theorem returnTypeOf_findsExpected_iff (h : u.Sound (standardConstants names))
    (hfits : c.Fits (standardConstants names)) (hout : c.returnType = none)
    (hid : signature.index < u.exprs.size) {answer : Answer hash TypeId}
    (hok : c.returnTypeOf u signature = .ok answer) :
    answer.FindsExpected ↔ u.WrapsNoType signature := by
  obtain ⟨first, hfirst, hsound, hasked, hcases⟩ := constantForm_spec h hfits hid
  have hidAfter := Nat.lt_of_lt_of_le hid hasked.exprs.size_le
  unfold returnTypeOf at hok
  simp only [hfirst, Bind.bind, Except.bind] at hok
  rcases hcases with ⟨form, hvalue, hform⟩ | ⟨-, leaf, name, pos, herror, hleaf, hname, -⟩
  · obtain ⟨second, hsecond, hsound', -, hasked', htyped⟩ :=
      typeOf_spec hsound hfits (hsound.evaluated_lt hidAfter hform) (inside_of_outside hout)
    have hasked' := hasked' hout
    rw [Answer.andThen_of_ok hvalue] at hok
    simp only [hsecond] at hok
    rw [← hasked.toGrown.wrapsNoType_iff h hid]
    rcases htyped with ⟨type, htype, hslot, -⟩ | ⟨e, herror⟩
    · rw [Answer.andThen_of_ok htype] at hok
      obtain ⟨-, hok⟩ := compareTypes_bind_eq_ok_iff.mp hok
      split at hok
      · rename_i hsame
        rw [← hasked'.toGrown.wrapsNoType_iff hsound hidAfter]
        exact denotedReturnType_findsExpected_iff hsound' hfits hout
          (Nat.lt_of_lt_of_le hidAfter hasked'.exprs.size_le)
          ((hasked'.findings _).constantForm _ hform) hslot
          ((hsound'.typesDescend.sameType_iff_alike (typed_lt hsound' (hsound'.typed _ _ hslot))
            (hsound'.baseTypes .type).lt).mp hsame) hok
      · rename_i hnot
        cases hok
        refine iff_of_false (not_findsExpected_of_not_sameType hsound' hslot hnot _)
          fun hwraps => ?_
        cases htype.symm.trans (typeOf_of_wrapsNoType hsound hfits hform hwraps hsecond)
        exact hnot (sameType_self _ _)
    · rw [Answer.andThen_of_error herror] at hok
      cases hok
      refine iff_of_false ?_ fun hwraps => ?_
      · rintro ⟨expected, actual, pos, ⟨⟩, hequal⟩
        exact typeOf_not_findsExpected hsecond ⟨_, _, _, herror, hequal⟩
      · cases herror.symm.trans (typeOf_of_wrapsNoType hsound hfits hform hwraps hsecond)
  · rw [Answer.andThen_of_error herror] at hok
    cases hok
    exact iff_of_false (not_findsExpected_of_unknownName rfl)
      fun hwraps => hwraps.not_name hleaf _ _ hname

/-! ## Items -/

theorem checkBody_not_findsExpected {expected : TypeId} {body : ExprId} {answer : Answer hash Unit}
    {d : Checker hash} (hok : c.checkBody u expected body = .ok (answer, d)) :
    ¬ answer.FindsExpected := by
  obtain ⟨typed, scopes, htyped, -, rfl, rfl⟩ := checkBody_eq_ok_iff.mp hok
  rintro ⟨found, actual, pos, herror, hsame⟩
  exact typeOf_not_findsExpected htyped
    ⟨found, actual, pos, Except.map_eq_error_iff.mp herror, hsame⟩

/-- The error of an item finds what it expects exactly if the signature wraps no type. -/
theorem check_findsExpected_iff (h : u.Sound (standardConstants names))
    (hfits : c.Fits (standardConstants names)) (hout : c.returnType = none) {item : ItemId}
    {function : FunctionItem} (hitem : u.HoldsItem item function) {answer : Answer hash Unit}
    {d : Checker hash} (hok : c.check u item = .ok (answer, d)) :
    answer.FindsExpected ↔ u.WrapsNoType function.signature := by
  obtain ⟨hsignature, -⟩ := h.items item function hitem
  unfold check at hok
  obtain ⟨-, hok⟩ := checkIndex_bind_eq_ok_iff.mp hok
  simp only [hitem.item_eq] at hok
  obtain ⟨first, hfirst, hok⟩ := Except.bind_eq_ok_iff.mp hok
  rw [← returnTypeOf_findsExpected_iff h hfits hout hsignature hfirst]
  cases hvalue : first.value with
  | error e =>
      simp only [hvalue] at hok
      cases hok
      constructor
      · rintro ⟨_, _, _, ⟨⟩, hsame⟩
        exact ⟨_, _, _, hvalue, hsame⟩
      · rintro ⟨_, _, _, herror, hsame⟩
        cases hvalue.symm.trans herror
        exact ⟨_, _, _, rfl, hsame⟩
  | ok expected =>
      simp only [hvalue] at hok
      exact iff_of_false (checkBody_not_findsExpected hok) (not_findsExpected_of_ok hvalue)

end Checker

namespace CompilationUnit

variable {s : Session hash} {prelude : Prelude} {item : ItemId} {function : FunctionItem}

/-- A function whose signature is two function type expressions around a literal. -/
def literalResult : CompilationUnit .constant :=
  let u := (Prelude.standard (.new .constant)).2
  let u := (u.addExpr (.intLiteral (.small 42)) .start).2
  let u := (u.addExpr (.functionType ⟨4⟩) .start).2
  let u := (u.addExpr (.functionType ⟨5⟩) .start).2
  let u := (u.addExpr (.intLiteral (.small 1)) .start).2
  let u := (u.addExpr (.return_ ⟨7⟩) .start).2
  (u.addItem ⟨⟨0⟩, ⟨6⟩, ⟨8⟩, .start⟩).2

theorem literalResult_reachable :
    Session.Reachable ⟨literalResult, [Prelude.initial], []⟩ := by
  have h₀ := Session.Reachable.step .refl (.prelude (.new .constant) (by decide))
  have h₁ := h₀.step (.addExpr _ (.intLiteral (.small 42)) .start ⟨by simp [Expr.name?],
    by simp [Expr.child?]⟩)
  have h₂ := h₁.step (.addExpr _ (.functionType ⟨4⟩) .start ⟨by simp [Expr.name?],
    by rintro _ ⟨⟩; decide +kernel⟩)
  have h₃ := h₂.step (.addExpr _ (.functionType ⟨5⟩) .start ⟨by simp [Expr.name?],
    by rintro _ ⟨⟩; decide +kernel⟩)
  have h₄ := h₃.step (.addExpr _ (.intLiteral (.small 1)) .start ⟨by simp [Expr.name?],
    by simp [Expr.child?]⟩)
  have h₅ := h₄.step (.addExpr _ (.return_ ⟨7⟩) .start ⟨by simp [Expr.name?],
    by rintro _ ⟨⟩; decide +kernel⟩)
  exact h₅.step (.addItem _ ⟨⟨0⟩, ⟨6⟩, ⟨8⟩, .start⟩ (by decide +kernel) (by decide +kernel)
    (by decide +kernel))

/-- The mismatch that the check of an item answers is one of equal types exactly if the signature is
two or more function type expressions around a literal or a return. -/
theorem check_findsExpected_iff_wrapsNoType (hs : s.Reachable)
    (hprelude : prelude ∈ s.preludes ∨ prelude = .empty)
    (hitem : s.unit.HoldsItem item function) {answer : Answer hash Unit}
    (hok : s.unit.check item prelude = .ok answer) :
    answer.FindsExpected ↔ s.unit.WrapsNoType function.signature := by
  have hsound := hs.sound
  obtain ⟨c, hc, hfits, hout⟩ := (hsound.fitsIn hprelude).exists_checker hsound.unit
  obtain ⟨d, hchecked⟩ := (check_eq_ok_iff hc).mp hok
  exact Checker.check_findsExpected_iff hsound.unit hfits hout hitem hchecked

/-- The error lies with a result that is a function type expression, and so has the type that is
asked for. -/
theorem check_literalResult_findsExpected : ∃ answer,
    literalResult.check ⟨0⟩ Prelude.initial = .ok answer ∧ answer.FindsExpected := by
  have hanswered : (literalResult.check ⟨0⟩ Prelude.initial).toOption.isSome = true := by
    decide +kernel
  have hwraps : literalResult.WrapsNoType ⟨6⟩ :=
    ⟨0, ⟨4⟩, .function (rfl : literalResult.Holds ⟨6⟩ (.functionType ⟨5⟩) .start)
      (.function (rfl : literalResult.Holds ⟨5⟩ (.functionType ⟨4⟩) .start) (.stay _)),
      .literal (rfl : literalResult.Holds ⟨4⟩ (.intLiteral (.small 42)) .start)⟩
  obtain ⟨answer, hanswer⟩ := Option.isSome_iff_exists.mp hanswered
  have hcheck := toOption_eq_some_iff.mp hanswer
  exact ⟨answer, hcheck, (check_findsExpected_iff_wrapsNoType literalResult_reachable
    (.inl (List.mem_singleton_self _))
    (rfl : literalResult.HoldsItem ⟨0⟩ ⟨⟨0⟩, ⟨6⟩, ⟨8⟩, .start⟩) hcheck).mpr hwraps⟩

/-- A mismatch may say that the type of types was expected and found. -/
theorem not_forall_check_mismatch_sameType :
    ¬ ∀ (hash : Hasher) (s : Session hash) (prelude : Prelude) (item : ItemId)
      (answer : Answer hash Unit) (expected actual : TypeId) (pos : Position), s.Reachable →
      prelude ∈ s.preludes ∨ prelude = .empty → item.index < s.unit.items.size →
      s.unit.check item prelude = .ok answer →
      answer.value = .error (.mismatch expected actual pos) →
      answer.unit.sameType expected actual = false := by
  intro hmismatchDiffers
  have hresult : (literalResult.check ⟨0⟩ Prelude.initial).toOption.map
      (fun answer => answer.value) =
        some (.error (.mismatch BaseType.type.typeId BaseType.type.typeId .start)) := by
    decide +kernel
  obtain ⟨answer, hanswer, hvalue⟩ := Option.map_eq_some_iff.mp hresult
  have hdifferent := hmismatchDiffers _ _ _ ⟨0⟩ answer _ _ _ literalResult_reachable
    (.inl (List.mem_singleton_self _)) (by decide +kernel) (toOption_eq_some_iff.mp hanswer) hvalue
  rw [sameType_self] at hdifferent
  cases hdifferent

end CompilationUnit

end FrontEnd
