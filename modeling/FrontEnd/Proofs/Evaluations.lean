import FrontEnd.Proofs.Coherence.Runs
import FrontEnd.Proofs.Typing.Frames
import FrontEnd.Proofs.Typing.Substitution

/-! # Evaluation under one prelude

As long as constant forms are found by questions under one prelude, they stay true whatever else is
done with a unit: an expression keeps the form that it was given, and an error stays one. -/

namespace FrontEnd

variable {hash : Hasher}

/-! ## The constants of a prelude -/

/-- What the names of a prelude stand for as constants. -/
def Prelude.constants (u : CompilationUnit hash) (prelude : Prelude) : Constants := fun name =>
  (prelude.entries.find? fun entry => entry.name = name).bind fun entry =>
    match (u.decl entry.constant).meaning with
    | .constant value type => some ⟨value, type⟩
    | _ => none

open CompilationUnit

variable {prelude : Prelude} {u v w : CompilationUnit hash} {c d : Checker hash} {id : ExprId}

theorem Prelude.constants_eq {name : Name} {binding constant : DeclId} {value : ExprId}
    {type : TypeId} (hentries : prelude.entries = [⟨name, binding, constant⟩])
    (hconstant : u.HoldsDecl constant ⟨name, .constant value type⟩) (other : Name) :
    prelude.constants u other = if other = name then some ⟨value, type⟩ else none := by
  by_cases hname : other = name
  · simp [constants, hentries, hname, hconstant.decl_eq]
  · simp [constants, hentries, hname, Ne.symm hname]

/-- The constants of a prelude stay the same. -/
theorem Prelude.constants_grow (hprelude : prelude.FitsIn u)
    (hgrown : u.Grown v) : prelude.constants v = prelude.constants u := by
  rcases hprelude with rfl | ⟨name, binding, constant, hentries, -, -, hconstant⟩
  · rfl
  · funext other
    rw [constants_eq hentries hconstant, constants_eq hentries (hgrown.holdsDecl hconstant)]

/-- The constants of a prelude all stand for the integer type. -/
theorem Prelude.eq_of_constants_eq_some (hprelude : prelude.FitsIn u)
    {name : Name} {binding : ConstantBinding} (h : prelude.constants u name = some binding) :
    binding = ⟨BaseType.int32.exprId, BaseType.type.typeId⟩ := by
  rcases hprelude with rfl | ⟨found, _, constant, hentries, -, -, hconstant⟩
  · cases h
  · rw [constants_eq hentries hconstant] at h
    split at h
    · exact (Option.some.inj h).symm
    · cases h

namespace Checker

/-- The checker that is made for a prelude knows its constants. -/
theorem exists_ofPrelude (hprelude : prelude.FitsIn u) :
    ∃ c, ofPrelude u prelude = .ok c ∧ c.Knows (prelude.constants u) := by
  rcases hprelude with rfl | ⟨name, binding, constant, hentries, -, -, hconstant⟩
  · obtain ⟨c, hc, hscopes, -, hlookup⟩ := ofPrelude_empty u
    exact ⟨c, hc, hscopes, hlookup⟩
  · obtain ⟨c, hc, hscopes, -, hlookup⟩ := ofPrelude_eq hentries hconstant
    refine ⟨c, hc, hscopes, fun other => ?_⟩
    rw [hlookup, Prelude.constants_eq hentries hconstant]

theorem knows_ofPrelude (hprelude : prelude.FitsIn u)
    (hok : ofPrelude u prelude = .ok c) : c.Knows (prelude.constants u) := by
  obtain ⟨c', hc, hknows⟩ := exists_ofPrelude hprelude
  obtain rfl := Except.ok.inj (hc.symm.trans hok)
  exact hknows

end Checker

/-! ## What leaves constant forms alone -/

namespace CompilationUnit

/-- Neither expressions nor constant forms are added. -/
structure KeepsForms (u v : CompilationUnit hash) : Prop where
  exprs_eq : v.exprs = u.exprs
  forms_eq : ∀ id, (v.findingsOf id).constantForm = (u.findingsOf id).constantForm

theorem KeepsForms.refl (u : CompilationUnit hash) : u.KeepsForms u := ⟨rfl, fun _ => rfl⟩

theorem Fills.keepsForms {slots : Set Slot} (h : u.Fills slots v)
    (hslots : .constantForm ∉ slots) : u.KeepsForms v :=
  ⟨h.exprs_eq hslots, h.get_eq .constantForm hslots⟩

end CompilationUnit

/-- After the form of its signature was found, the check of an item finds no other ones. -/
theorem Checker.check_keepsForms {item : ItemId} {answer : Answer hash Unit}
    (hok : c.check u item = .ok (answer, d)) :
    ∃ first, c.constantForm u (u.item item).signature = .ok first ∧
      first.unit.KeepsForms answer.unit := by
  obtain ⟨first, hfirst, hfills⟩ := check_fills_after_form hok
  exact ⟨first, hfirst, hfills.keepsForms (by simp)⟩

/-! ## Runs under one prelude -/

namespace Session

variable {s t : Session hash}

/-- A prelude that there is in a session. -/
def Offers (s : Session hash) (prelude : Prelude) : Prop := prelude = .empty ∨ prelude ∈ s.preludes

/-- What may be done so that constant forms are found by questions under one prelude alone: these
questions, and anything else that finds no constant form. -/
inductive Evaluation (prelude : Prelude) : Session hash → Session hash → Prop where
  | other {s t : Session hash} (hoperation : Operation s t)
      (hforms : ∀ id, (t.unit.findingsOf id).constantForm = (s.unit.findingsOf id).constantForm) :
      Evaluation prelude s t
  | constantForm (s : Session hash) (c : Checker hash) (id : ExprId)
      (answer : Answer hash (Option ExprId)) (hprelude : s.Offers prelude) (hc : c ∈ s.checkers)
      (hknows : c.Knows (prelude.constants s.unit)) (hid : id.index < s.unit.exprs.size)
      (hok : c.constantForm s.unit id = .ok answer) :
      Evaluation prelude s { s with unit := answer.unit }
  | checkWith (s : Session hash) (c d : Checker hash) (item : ItemId) (answer : Answer hash Unit)
      (hprelude : s.Offers prelude) (hc : c ∈ s.checkers)
      (hknows : c.Knows (prelude.constants s.unit)) (hitem : item.index < s.unit.items.size)
      (hok : c.check s.unit item = .ok (answer, d)) :
      Evaluation prelude s ⟨answer.unit, s.preludes, d :: s.checkers⟩
  | check (s : Session hash) (item : ItemId) (answer : Answer hash Unit)
      (hprelude : s.Offers prelude) (hitem : item.index < s.unit.items.size)
      (hok : s.unit.check item prelude = .ok answer) :
      Evaluation prelude s { s with unit := answer.unit }

def Evaluations (prelude : Prelude) : Session hash → Session hash → Prop :=
  Relation.ReflTransGen (Evaluation prelude)

theorem Evaluation.operation (h : Evaluation prelude s t) : Operation s t := by
  cases h with
  | other hoperation hforms => exact hoperation
  | constantForm c id answer hprelude hc hknows hid hok =>
      exact .constantForm s c id answer hc hid hok
  | checkWith c d item answer hprelude hc hknows hitem hok =>
      exact .checkWith s c d item answer hc hitem hok
  | check item answer hprelude hitem hok => exact .check s item prelude answer hitem hprelude hok

theorem Operation.offers (h : Operation s t) (hprelude : s.Offers prelude) : t.Offers prelude := by
  refine hprelude.imp_right fun hmem => ?_
  cases h with
  | prelude hroom => exact List.mem_cons_of_mem _ hmem
  | _ => exact hmem

/-- As long as there is no constant form, anything may have been done. -/
theorem Operations.evaluations (hs : s.Coherent) (hrun : Operations s t)
    (hforms : ∀ id, (t.unit.findingsOf id).constantForm = none) : Evaluations prelude s t :=
  hrun.lift_of_none Findings.constantForm (fun hkept => hkept.constantForm) .other hs hforms

/-- The constant forms in a session are true under one prelude. -/
structure Evaluated (prelude : Prelude) (s : Session hash) : Prop where
  coherent : s.Coherent
  forms : ∀ id form, (s.unit.findingsOf id).constantForm = some form →
    s.Offers prelude ∧ s.unit.Form (prelude.constants s.unit) id form

theorem new_evaluated (prelude : Prelude) : Evaluated prelude (.new hash) where
  coherent := new_coherent
  forms id form hform := by
    change ((CompilationUnit.new hash).findingsOf id).constantForm = some form at hform
    rw [findingsOf_new] at hform
    cases hform

theorem Evaluated.evaluable (h : Evaluated prelude s) (hprelude : s.Offers prelude) :
    s.unit.Evaluable (prelude.constants s.unit) where
  findings_size := h.coherent.unit.findings_size
  exprsDescend := h.coherent.unit.exprsDescend
  values name binding hname := by
    rw [Prelude.eq_of_constants_eq_some (h.coherent.isStandard hprelude) hname]
    exact (h.coherent.unit.baseExprs .int32).lt
  forms id form hform := (h.forms id form hform).2

theorem Evaluated.constants_eq (h : Evaluated prelude s) (hprelude : s.Offers prelude)
    (hgrown : s.unit.Grown u) : prelude.constants u = prelude.constants s.unit :=
  Prelude.constants_grow (h.coherent.isStandard hprelude) hgrown

/-- The forms that a question under the prelude left are true in the session after it. -/
theorem Evaluated.asked (h : Evaluated prelude s) (hoperation : Operation s t)
    (hprelude : s.Offers prelude) (hu : u.Evaluable (prelude.constants s.unit))
    (hkeeps : u.KeepsForms t.unit) : Evaluated prelude t where
  coherent := (h.coherent.operation hoperation).1
  forms id form hform := by
    refine ⟨hoperation.offers hprelude, ?_⟩
    rw [h.constants_eq hprelude (h.coherent.operation hoperation).2]
    rw [hkeeps.forms_eq] at hform
    exact (hu.forms id form hform).keep (hkeeps.exprs_eq ▸ .refl _) (.refl _)

/-- A check evaluates the signature of its item, and finds no other constant form. -/
theorem Evaluated.checked (h : Evaluated prelude s) (hoperation : Operation s t)
    (hprelude : s.Offers prelude) (hknows : c.Knows (prelude.constants s.unit)) {item : ItemId}
    (hitem : item.index < s.unit.items.size) {answer : Answer hash Unit}
    (hok : c.check s.unit item = .ok (answer, d)) (hunit : t.unit = answer.unit) :
    Evaluated prelude t := by
  obtain ⟨first, hfirst, hkeeps⟩ := Checker.check_keepsForms hok
  have hsignature := (h.coherent.unit.itemsFit item _ (holdsItem_item hitem)).signature
  obtain ⟨first', hfirst', hafter, -⟩ :=
    Checker.constantForm_evaluates (h.evaluable hprelude) hknows.fits hsignature
  obtain rfl := Except.ok.inj (hfirst'.symm.trans hfirst)
  exact h.asked hoperation hprelude hafter (hunit ▸ hkeeps)

theorem Evaluated.evaluation (h : Evaluated prelude s) (hstep : Evaluation prelude s t) :
    Evaluated prelude t := by
  have hoperation := hstep.operation
  cases hstep with
  | other _ hforms =>
      obtain ⟨hcoherent, hgrown⟩ := h.coherent.operation hoperation
      refine ⟨hcoherent, fun id form hform => ?_⟩
      rw [hforms] at hform
      obtain ⟨hprelude, htrue⟩ := h.forms id form hform
      refine ⟨hoperation.offers hprelude, ?_⟩
      rw [h.constants_eq hprelude hgrown]
      exact htrue.mono hgrown (.refl _)
  | constantForm c id answer hprelude hc hknows hid hok =>
      obtain ⟨answer', hanswer, hafter, -⟩ :=
        Checker.constantForm_evaluates (h.evaluable hprelude) hknows.fits hid
      obtain rfl := Except.ok.inj (hanswer.symm.trans hok)
      exact h.asked hoperation hprelude hafter (.refl _)
  | checkWith c d item answer hprelude hc hknows hitem hok =>
      exact h.checked hoperation hprelude hknows hitem hok rfl
  | check item answer hprelude hitem hok =>
      unfold CompilationUnit.check at hok
      obtain ⟨c, hc, hok⟩ := Except.bind_eq_ok_iff.mp hok
      obtain ⟨⟨answer', d⟩, hchecked, hok⟩ := Except.bind_eq_ok_iff.mp hok
      cases hok
      exact h.checked hoperation hprelude
        (Checker.knows_ofPrelude (h.coherent.isStandard hprelude) hc) hitem hchecked rfl

theorem Evaluated.evaluations (h : Evaluated prelude s) (hrun : Evaluations prelude s t) :
    Evaluated prelude t ∧ s.unit.Grown t.unit ∧ (s.Offers prelude → t.Offers prelude) := by
  induction hrun with
  | refl => exact ⟨h, .refl _, id⟩
  | tail _ hstep ih =>
      obtain ⟨hmiddle, hgrown, hoffers⟩ := ih
      exact ⟨hmiddle.evaluation hstep,
        hgrown.trans (hmiddle.coherent.operation hstep.operation).2,
        fun hprelude => hstep.operation.offers (hoffers hprelude)⟩

/-- Evaluation under the prelude gives the substituted form. It is found again in all later
sessions, and its own form is a copy of it. -/
theorem constantForm_substitutes (hs : Evaluations prelude (.new hash) s)
    (hprelude : s.Offers prelude) (hc : c ∈ s.checkers)
    (hknows : c.Knows (prelude.constants s.unit)) (hid : id.index < s.unit.exprs.size) :
    ∃ leaf outer answer,
      Trail s.unit.functionResult? leaf outer id ∧ s.unit.functionResult? leaf = none ∧
      c.constantForm s.unit id = .ok answer ∧
      s.unit.Substituted (prelude.constants s.unit) leaf outer answer ∧
      (outer = [] → answer.value = s.unit.leafForm (prelude.constants s.unit) id) ∧
      answer.unit.exprs.size ≤ s.unit.exprs.size +
        outer.countP (fun node => (s.unit.findingsOf node).constantForm.isNone) ∧
      ∀ (t : Session hash) (d : Checker hash),
        Evaluations prelude { s with unit := answer.unit } t →
        d.Knows (prelude.constants s.unit) →
        d.constantForm t.unit id = .ok ⟨answer.value, t.unit⟩ ∧
        ∀ made, answer.value = .ok (some made) →
          ∃ twin after, d.constantForm t.unit made = .ok ⟨.ok (some twin), after⟩ ∧
            after.SameForm made twin := by
  have hsession := ((new_evaluated prelude).evaluations hs).1
  have hevaluable := hsession.evaluable hprelude
  obtain ⟨leaf, outer, htrail, hleaf, -⟩ := hevaluable.exists_leaf id
  obtain ⟨answer, hanswer, -, hevaluates, hsubstituted, hsize, -⟩ :=
    Checker.constantForm_substituted hevaluable hknows hid htrail hleaf
  refine ⟨leaf, outer, answer, htrail, hleaf, hanswer, hsubstituted, ?_, hsize, ?_⟩
  · rintro rfl
    cases htrail
    exact hsubstituted.value_of_leaf
  · intro t d ht hd
    have hstep := Evaluation.constantForm s c id answer hprelude hc hknows hid hanswer
    obtain ⟨hlater, hgrown, hoffers⟩ := (hsession.evaluation hstep).evaluations ht
    have hwhole : s.unit.Grown t.unit := hevaluates.toGrown.trans hgrown
    have hevaluable' := hlater.evaluable (hoffers (hstep.operation.offers hprelude))
    rw [hsession.constants_eq hprelude hwhole] at hevaluable'
    have hvalues : ∀ name binding, prelude.constants s.unit name = some binding →
        ∃ kind pos, t.unit.Holds binding.value (.baseType kind) pos := by
      intro name binding hname
      rw [Prelude.eq_of_constants_eq_some (hsession.coherent.isStandard hprelude) hname]
      exact ⟨_, _, hlater.coherent.unit.baseExprs .int32⟩
    exact ⟨Checker.constantForm_again hevaluable hevaluable' hknows hd hid hanswer hgrown,
      fun made => Checker.constantForm_of_answer hevaluable hevaluable' hvalues hknows hd hid
        hanswer hgrown⟩

/-- A signature, a function type around a function type around the name of the integer type, is
evaluated to two new function types around the integer type. -/
theorem constantForm_substitutes_literalUnit : ∃ c answer twin after,
    Checker.ofPrelude (literalUnit ⟨1⟩ 1) Prelude.initial = .ok c ∧
      c.constantForm (literalUnit ⟨1⟩ 1) ⟨6⟩ = .ok answer ∧ answer.value = .ok (some ⟨10⟩) ∧
      answer.unit.functionResult? ⟨10⟩ = some ⟨9⟩ ∧
      answer.unit.functionResult? ⟨9⟩ = some BaseType.int32.exprId ∧
      c.constantForm answer.unit ⟨6⟩ = .ok answer ∧
      c.constantForm answer.unit ⟨10⟩ = .ok ⟨.ok (some twin), after⟩ ∧
      after.SameForm ⟨10⟩ twin := by
  have hcoherent := (new_coherent.operations literalUnit_operations).1
  have hstandard := hcoherent.isStandard (.inr (List.mem_singleton_self _))
  obtain ⟨c, hc, hknows⟩ := Checker.exists_ofPrelude hstandard
  have hs : Operations (new .constant) ⟨literalUnit ⟨1⟩ 1, [Prelude.initial], [c]⟩ :=
    literalUnit_operations.tail (.checker _ _ c (.inr (List.mem_singleton_self _)) hc)
  have hresult : (Checker.ofPrelude (literalUnit ⟨1⟩ 1) Prelude.initial).toOption.bind
      (fun c => (c.constantForm (literalUnit ⟨1⟩ 1) ⟨6⟩).toOption.map fun answer =>
        (answer.value, answer.unit.functionResult? ⟨10⟩, answer.unit.functionResult? ⟨9⟩)) =
      some (.ok (some ⟨10⟩), some ⟨9⟩, some BaseType.int32.exprId) := by
    decide +kernel
  have hforms : ∀ id, ((literalUnit ⟨1⟩ 1).findingsOf id).constantForm = none :=
    part_eq_none_of_all Findings.constantForm rfl (by decide +kernel)
  have hid : (⟨6⟩ : ExprId).index < (literalUnit ⟨1⟩ 1).exprs.size := by decide +kernel
  obtain ⟨leaf, outer, answer, -, -, hanswer, -, -, -, hlater⟩ := constantForm_substitutes
    (hs.evaluations new_coherent hforms) (.inr (List.mem_singleton_self _))
    (List.mem_singleton_self c) hknows hid
  simp only [hc, hanswer, Except.toOption, Option.bind_some, Option.map_some, Option.some.injEq,
    Prod.mk.injEq] at hresult
  obtain ⟨hvalue, houter, hinner⟩ := hresult
  obtain ⟨hagain, htwin⟩ := hlater _ c .refl hknows
  obtain ⟨twin, after, htwin, hform⟩ := htwin _ hvalue
  exact ⟨c, answer, twin, after, hc, hanswer, hvalue, houter, hinner, hagain, htwin, hform⟩

end Session

end FrontEnd
