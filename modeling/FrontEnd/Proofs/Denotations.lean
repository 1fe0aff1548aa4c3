import FrontEnd.Proofs.BindingFrame
import FrontEnd.Proofs.Coherence.Runs
import FrontEnd.Proofs.Grammar.Prefixes
import FrontEnd.Proofs.Typing.Frames
import FrontEnd.Proofs.Typing.Substitution

/-! # Denoted types are exact

As long as denoted types are recorded by questions alone, they are true whatever else is done with a
unit: a base type under so many function type expressions denotes as many function types around it,
and all other expressions denote none. -/

namespace FrontEnd

variable {hash : Hasher}

namespace CompilationUnit

variable {u v : CompilationUnit hash} {id leaf : ExprId} {outer : List ExprId}
  {type? : Option TypeId}

/-! ## Types around a type -/

/-- From a type outwards, along so many function types that each have the one before as result, to
the last. -/
inductive FunctionTypes (u : CompilationUnit hash) : TypeId → (depth : Nat) → TypeId → Prop where
  | stay (type : TypeId) : FunctionTypes u type 0 type
  | out {type next top : TypeId} {depth : Nat} : u.HoldsType next (.function type) →
      FunctionTypes u next depth top → FunctionTypes u type (depth + 1) top

theorem FunctionTypes.shape {type top : TypeId} {depth d : Nat} {kind : BaseType}
    (h : u.FunctionTypes type depth top) (htype : u.Shape type d kind) :
    u.Shape top (d + depth) kind := by
  induction h generalizing d with
  | stay type => exact htype
  | @out type next top depth hnext _ ih =>
      have hshape := ih (.function hnext htype)
      rwa [Nat.add_right_comm] at hshape

/-- What expressions denote with this leaf under so many function type expressions. -/
def DenotesAround (u : CompilationUnit hash) (leaf : ExprId) (depth : Nat) (type? : Option TypeId) :
    Prop :=
  match (u.expr leaf).expr with
  | .baseType kind => ∃ type, type? = some type ∧ u.FunctionTypes kind.typeId depth type ∧
      u.spellType type = String.join (List.replicate depth "() -> ") ++ kind.name
  | _ => type? = none

/-- An expression denotes what its leaf denotes, under the function types in between. -/
theorem Denotes.of_trail (h : u.Denotes id type?) (htrail : Trail u.functionResult? leaf outer id) :
    ∃ inner?, u.Denotes leaf inner? ∧ match inner? with
      | none => type? = none
      | some inner => ∃ type, type? = some type ∧ u.FunctionTypes inner outer.length type := by
  induction htrail with
  | stay id =>
      refine ⟨type?, h, ?_⟩
      cases type? with
      | none => rfl
      | some type => exact ⟨type, rfl, .stay type⟩
  | out hnext _ ih =>
      obtain ⟨next?, hdenotes, hnext?⟩ := ih h
      obtain ⟨pos, hholds⟩ := functionResult?_eq_some_iff.mp hnext
      rcases hdenotes.of_holds hholds with ⟨rfl, hnone⟩ | ⟨inner, next, rfl, hinner, htype⟩
      · exact ⟨none, hnone, hnext?⟩
      · obtain ⟨type, rfl, htypes⟩ := hnext?
        exact ⟨some inner, hinner, type, rfl, .out htype htypes⟩

theorem Denotes.denotesAround (h : u.Denotes id type?) (hu : u.Denotable)
    (htrail : Trail u.functionResult? leaf outer id) (hleaf : u.functionResult? leaf = none) :
    u.DenotesAround leaf outer.length type? := by
  obtain ⟨inner?, hdenotes, htype?⟩ := h.of_trail htrail
  unfold DenotesAround
  cases hdenotes with
  | baseType hholds =>
      obtain ⟨type, rfl, htypes⟩ := htype?
      rw [hholds.expr_eq]
      refine ⟨type, rfl, htypes, hu.typesDescend.spellType_eq ?_⟩
      have hshape := htypes.shape (.base (hu.baseTypes _))
      rwa [Nat.zero_add] at hshape
  | literal hholds =>
      rw [hholds.expr_eq]
      exact htype?
  | name hholds =>
      rw [hholds.expr_eq]
      exact htype?
  | return_ hholds =>
      rw [hholds.expr_eq]
      exact htype?
  | function hholds =>
      cases (functionResult?_eq_some_iff.mpr ⟨_, hholds⟩).symm.trans hleaf
  | typeless hholds =>
      cases (functionResult?_eq_some_iff.mpr ⟨_, hholds⟩).symm.trans hleaf

/-! ## What leaves denoted types true -/

/-- Denoted types stay true if none are added. -/
theorem Denotable.advance (h : u.Denotable) (hadvances : u.Advances v)
    (hsame : ∀ id, (v.findingsOf id).denotedType = (u.findingsOf id).denotedType) :
    v.Denotable where
  findings_size := hadvances.coherent.findings_size
  baseTypes := hadvances.coherent.baseTypes
  typesDescend := hadvances.coherent.typesDescend
  exprsDescend := hadvances.coherent.exprsDescend
  denoted id type htype := hadvances.grown.denotes (h.denoted id type (hsame id ▸ htype))

theorem Denotable.fills {slots : Set Slot} (h : u.Denotable) (hv : v.Coherent)
    (hfills : u.Fills slots v) (hslots : .denotedType ∉ slots) : v.Denotable :=
  h.advance ⟨hv, hfills.toGrown⟩ (hfills.get_eq .denotedType hslots)

end CompilationUnit

namespace Checker

open CompilationUnit

variable {u v : CompilationUnit hash} {c d : Checker hash} {id : ExprId}

theorem denotedType_denotable (h : u.Denotable) (hid : id.index < u.exprs.size)
    {type? : Option TypeId} (hok : denotedType u id = .ok (type?, v)) : v.Denotable := by
  obtain ⟨found, w, hw, hdenotable, -⟩ := denotedType_lifts h hid
  obtain ⟨-, rfl⟩ := Prod.mk.inj (Except.ok.inj (hw.symm.trans hok))
  exact hdenotable

/-- What a signature denotes is asked for by a question. -/
theorem returnTypeOf_denotable (h : u.Denotable) (hu : u.Coherent) (hc : c.InRange u)
    (hid : id.index < u.exprs.size) {answer : Answer hash TypeId}
    (hok : c.returnTypeOf u id = .ok answer) : answer.unit.Denotable := by
  have hreturned := (returnTypeOf_advances hu hc hid hok).unit.coherent
  obtain ⟨first, hfirst, hrest⟩ := returnTypeOf_fills hok
  obtain ⟨hadvances, hform⟩ := constantForm_advances hu hc hid hfirst
  have hdenotable := h.fills hadvances.coherent (constantForm_fills hfirst) (by simp)
  rcases hrest with hunit | ⟨form, typed, hvalue, htyped, hrest⟩
  · rwa [hunit]
  · have hevaluated : (form.getD id).index < first.unit.exprs.size := by
      cases form with
      | none => exact hadvances.expr_lt hid
      | some made => exact hform _ hvalue made rfl
    have hadvances' := (typeOf_advances hadvances.coherent (hc.grow hadvances.grown) hevaluated
      htyped).unit
    have htypable := hdenotable.fills hadvances'.coherent (typeOf_fills htyped) (by simp)
    rcases hrest with hunit | ⟨type?, w, hdenoted, hlast⟩
    · rwa [hunit]
    · exact (denotedType_denotable htypable (hadvances'.expr_lt hevaluated) hdenoted).fills
        hreturned hlast (by simp)

theorem check_denotable (h : u.Denotable) (hu : u.Coherent) (hc : c.InRange u) {item : ItemId}
    (hitem : item.index < u.items.size) {answer : Answer hash Unit}
    (hok : c.check u item = .ok (answer, d)) : answer.unit.Denotable := by
  have hsignature := (hu.itemsFit item _ (holdsItem_item hitem)).signature
  obtain ⟨returned, hreturned, hfills⟩ := check_fills hok
  exact (returnTypeOf_denotable h hu hc hsignature hreturned).fills
    (check_advances hu hc hitem hok).1.coherent hfills (by simp)

end Checker

/-! ## Runs in which denoted types are asked for -/

namespace Session

open CompilationUnit

variable {s t : Session hash} {id : ExprId}

/-- What may be done so that denoted types are found by questions alone: these questions, and
anything else that finds no denoted type. -/
inductive Denotation : Session hash → Session hash → Prop where
  | other {s t : Session hash} (hoperation : Operation s t)
      (hsame : ∀ id, (t.unit.findingsOf id).denotedType = (s.unit.findingsOf id).denotedType) :
      Denotation s t
  | denotedType (s : Session hash) (id : ExprId) (type? : Option TypeId) (u : CompilationUnit hash)
      (hid : id.index < s.unit.exprs.size)
      (hok : Checker.denotedType s.unit id = .ok (type?, u)) : Denotation s { s with unit := u }
  | checkWith (s : Session hash) (c d : Checker hash) (item : ItemId) (answer : Answer hash Unit)
      (hc : c ∈ s.checkers) (hitem : item.index < s.unit.items.size)
      (hok : c.check s.unit item = .ok (answer, d)) :
      Denotation s ⟨answer.unit, s.preludes, d :: s.checkers⟩
  | check (s : Session hash) (item : ItemId) (prelude : Prelude) (answer : Answer hash Unit)
      (hitem : item.index < s.unit.items.size)
      (hprelude : prelude = .empty ∨ prelude ∈ s.preludes)
      (hok : s.unit.check item prelude = .ok answer) : Denotation s { s with unit := answer.unit }

def Denotations : Session hash → Session hash → Prop := Relation.ReflTransGen Denotation

theorem Denotation.operation (h : Denotation s t) : Operation s t := by
  cases h with
  | other hoperation hsame => exact hoperation
  | denotedType id type? u hid hok => exact .denotedType s id type? u hid hok
  | checkWith c d item answer hc hitem hok => exact .checkWith s c d item answer hc hitem hok
  | check item prelude answer hitem hprelude hok =>
      exact .check s item prelude answer hitem hprelude hok

/-- Any operation will do, unless it records a denoted type that was not asked for. -/
theorem Operation.denotation_or (h : Operation s t) :
    Denotation s t ∨ ∃ id type?, s.unit.record .denotedType id type? = .ok t.unit := by
  have hoperation := h
  cases h with
  | intern text hroom => exact .inl (.other hoperation fun _ => rfl)
  | addSource path bytes hroom => exact .inl (.other hoperation fun _ => rfl)
  | tokenizeSource config source hroom => exact .inl (.other hoperation fun _ => rfl)
  | parse tokens htokens =>
      exact .inl (.other hoperation fun id =>
        congrArg Findings.denotedType (parse_findingsOf s.unit tokens id))
  | addExpr expr pos hexpr =>
      exact .inl (.other hoperation fun id =>
        congrArg Findings.denotedType (findingsOf_addExpr expr pos id))
  | addFunctionType result hresult => exact .inl (.other hoperation fun _ => rfl)
  | addItem item hitem => exact .inl (.other hoperation fun _ => rfl)
  | addDeclaration decl hdecl => exact .inl (.other hoperation fun _ => rfl)
  | recordItemDeclaration item decl u hdecl hok =>
      obtain ⟨-, -, rfl⟩ := recordItemDeclaration_eq_ok_iff.mp hok
      exact .inl (.other hoperation fun _ => rfl)
  | record slot id value u hvalue hok =>
      by_cases hslot : slot = .denotedType
      · subst hslot
        exact .inr ⟨id, value, hok⟩
      · exact .inl (.other hoperation fun other => get_record_of_ne hok (Ne.symm hslot) other)
  | declareItem item u hitem hok =>
      obtain ⟨-, rfl⟩ := declareItem_eq_ok_iff.mp hok
      exact .inl (.other hoperation fun _ => rfl)
  | resolve item table resolution hitem htable hok =>
      refine .inl (.other hoperation fun id => ?_)
      have hsame := congrArg (fun u => u.findingsOf id) (resolve_resolved hok).stripped_eq
      simp only [findingsOf_stripped] at hsame
      exact (congrArg Findings.denotedType hsame :)
  | bind item prelude answer u hitem hprelude hok =>
      exact .inl (.other hoperation fun id =>
        (congrArg Findings.denotedType (bind_findingsOf hok id) :))
  | prelude hroom => exact .inl (.other hoperation fun _ => rfl)
  | checker prelude c hprelude hok => exact .inl (.other hoperation fun _ => rfl)
  | constantForm c id answer hc hid hok =>
      exact .inl (.other hoperation
        ((Checker.constantForm_fills hok).get_eq .denotedType (by simp)))
  | denotedType id type u hid hok => exact .inl (.denotedType s id type u hid hok)
  | typeOf c id answer hc hid hok =>
      exact .inl (.other hoperation ((Checker.typeOf_fills hok).get_eq .denotedType (by simp)))
  | checkWith c d item answer hc hitem hok =>
      exact .inl (.checkWith s c d item answer hc hitem hok)
  | check item prelude answer hitem hprelude hok =>
      exact .inl (.check s item prelude answer hitem hprelude hok)

/-- As long as there is no denoted type, anything may have been done. -/
theorem Operations.denotations (hs : s.Coherent) (hrun : Operations s t)
    (hnone : ∀ id, (t.unit.findingsOf id).denotedType = none) : Denotations s t :=
  hrun.lift_of_none Findings.denotedType (fun hkept => hkept.denotedType) .other hs hnone

/-- The denoted types in a session are true. -/
structure Denoted (s : Session hash) : Prop where
  coherent : s.Coherent
  unit : s.unit.Denotable

theorem new_denoted : Denoted (new hash) :=
  ⟨new_coherent, CompilationUnit.new_sound.denotable⟩

theorem Denoted.denotation (h : s.Denoted) (hstep : Denotation s t) : t.Denoted := by
  obtain ⟨hcoherent, hgrown⟩ := h.coherent.operation hstep.operation
  refine ⟨hcoherent, ?_⟩
  cases hstep with
  | other _ hsame => exact h.unit.advance ⟨hcoherent.unit, hgrown⟩ hsame
  | denotedType id type? u hid hok => exact Checker.denotedType_denotable h.unit hid hok
  | checkWith c d item answer hc hitem hok =>
      exact Checker.check_denotable h.unit h.coherent.unit (h.coherent.checkers c hc) hitem hok
  | check item prelude answer hitem hprelude hok =>
      unfold CompilationUnit.check at hok
      obtain ⟨c, hc, hok⟩ := Except.bind_eq_ok_iff.mp hok
      obtain ⟨⟨answer', d⟩, hchecked, hok⟩ := Except.bind_eq_ok_iff.mp hok
      cases hok
      exact Checker.check_denotable h.unit h.coherent.unit
        (Checker.ofPrelude_inRange h.coherent.unit (h.coherent.isStandard hprelude) hc) hitem
        hchecked

theorem Denoted.denotations (h : s.Denoted) (hrun : Denotations s t) :
    t.Denoted ∧ s.unit.Grown t.unit := by
  induction hrun with
  | refl => exact ⟨h, .refl _⟩
  | tail _ hstep ih =>
      obtain ⟨hmiddle, hgrown⟩ := ih
      exact ⟨hmiddle.denotation hstep,
        hgrown.trans (hmiddle.coherent.operation hstep.operation).2⟩

/-- An expression denotes what its structure says, whatever was asked before and is asked later.
What it denotes is found once, and with it only what the expressions inside of it denote: the
constant form of an expression, which may denote another type, is asked about apart from it. -/
theorem denotedType_exact (hs : Denotations (new hash) s) (hid : id.index < s.unit.exprs.size) :
    ∃ leaf outer type? after,
      Trail s.unit.functionResult? leaf outer id ∧ s.unit.functionResult? leaf = none ∧
      Checker.denotedType s.unit id = .ok (type?, after) ∧
      after.DenotesAround leaf outer.length type? ∧ s.unit.Lifts after ∧
      (∀ other, ¬ s.unit.FunctionsTo id other →
        (after.findingsOf other).denotedType = (s.unit.findingsOf other).denotedType) ∧
      ∀ t, Denotations { s with unit := after } t →
        Checker.denotedType t.unit id = .ok (type?, t.unit) ∧
        t.unit.DenotesAround leaf outer.length type? ∧
        ∀ other found, (after.findingsOf other).denotedType = some found →
          (t.unit.findingsOf other).denotedType = some found := by
  have hsession := (new_denoted.denotations hs).1
  have hdown := functionResult?_leadsDown hsession.unit.exprsDescend
  obtain ⟨htrail, hleaf⟩ := ExprId.descend_spec hdown (.stay id)
  generalize id.descend s.unit.functionResult? [] = reached at htrail hleaf
  obtain ⟨outer, leaf⟩ := reached
  have hlt : leaf.index < s.unit.exprs.size := Nat.lt_of_le_of_lt (htrail.index_le hdown) hid
  obtain ⟨type?, after, hanswer, hdenotable, hlifts, hfound, hothers⟩ :=
    Checker.denotedType_lifts hsession.unit hid
  have hexact : ∀ u : CompilationUnit hash, s.unit.Grown u → u.Denotable →
      (u.findingsOf id).denotedType = some type? → u.DenotesAround leaf outer.length type? :=
    fun u hgrown hu hfound => (hu.denoted id type? hfound).denotesAround hu
      (hgrown.functionResult?_trail htrail) ((hgrown.functionResult?_eq hlt).trans hleaf)
  refine ⟨leaf, outer, type?, after, htrail, hleaf, hanswer,
    hexact after hlifts.toGrown hdenotable hfound, hlifts, hothers, fun t ht => ?_⟩
  have hstep := hsession.denotation (.denotedType s id type? after hid hanswer)
  obtain ⟨hlater, hgrown⟩ := hstep.denotations ht
  have hkept : ∀ other found, (after.findingsOf other).denotedType = some found →
      (t.unit.findingsOf other).denotedType = some found :=
    fun other found hother => (hgrown.findings other).denotedType found hother
  have hfound' := hkept id type? hfound
  have hid' := Nat.lt_of_lt_of_le hid (hlifts.toGrown.trans hgrown).exprs.size_le
  exact ⟨Checker.denotedType_of_found hid' hfound',
    hexact t.unit (hlifts.toGrown.trans hgrown) hlater.unit hfound', hkept⟩

/-- A signature, two function type expressions around a name, denotes no type. Its constant form
denotes two function types around the integer type, and both answers stay. -/
theorem denotedType_exact_literalUnit : ∃ c form after last,
    Checker.ofPrelude (literalUnit ⟨1⟩ 1) Prelude.initial = .ok c ∧
      c.constantForm (literalUnit ⟨1⟩ 1) ⟨6⟩ = .ok form ∧ form.value = .ok (some ⟨10⟩) ∧
      Checker.denotedType form.unit ⟨6⟩ = .ok (none, after) ∧
      Checker.denotedType after ⟨10⟩ = .ok (some ⟨5⟩, last) ∧
      last.FunctionTypes BaseType.int32.typeId 2 ⟨5⟩ ∧
      last.spellType ⟨5⟩ = "() -> () -> Int32" ∧
      Checker.denotedType last ⟨6⟩ = .ok (none, last) ∧
      Checker.denotedType last ⟨10⟩ = .ok (some ⟨5⟩, last) := by
  have hform : (Checker.ofPrelude (literalUnit ⟨1⟩ 1) Prelude.initial).toOption.bind
      (fun c => (c.constantForm (literalUnit ⟨1⟩ 1) ⟨6⟩).toOption.map fun form =>
        (form.value, decide (10 < form.unit.exprs.size))) = some (.ok (some ⟨10⟩), true) := by
    decide +kernel
  have hasked : (Checker.ofPrelude (literalUnit ⟨1⟩ 1) Prelude.initial).toOption.bind
      (fun c => (c.constantForm (literalUnit ⟨1⟩ 1) ⟨6⟩).toOption.bind fun form =>
        (Checker.denotedType form.unit ⟨6⟩).toOption.bind fun asked =>
          (Checker.denotedType asked.2 ⟨10⟩).toOption.map fun again =>
            (asked.1, again.1, ExprId.descend asked.2.functionResult? [] ⟨10⟩)) =
      some (none, some ⟨5⟩, [⟨9⟩, ⟨10⟩], BaseType.int32.exprId) := by
    decide +kernel
  obtain ⟨c, hc, hform⟩ := Option.bind_eq_some_iff.mp hform
  obtain ⟨form, hanswer, hvalue⟩ := Option.map_eq_some_iff.mp hform
  simp only [hc, hanswer, Option.bind_some] at hasked
  rw [toOption_eq_some_iff] at hc hanswer
  obtain ⟨hvalue, hlt⟩ := Prod.mk.inj hvalue
  rw [decide_eq_true_eq] at hlt
  have hsix : (⟨6⟩ : ExprId).index < (literalUnit ⟨1⟩ 1).exprs.size := by decide +kernel
  have hnone : ∀ id, (form.unit.findingsOf id).denotedType = none := fun id =>
    ((Checker.constantForm_fills hanswer).get_eq .denotedType (by simp) id).trans
      (part_eq_none_of_all Findings.denotedType rfl (by decide +kernel) id)
  have hrun : Operations (new .constant) ⟨form.unit, [Prelude.initial], [c]⟩ :=
    (literalUnit_operations.tail (.checker _ _ c (.inr (List.mem_singleton_self _)) hc)).tail
      (.constantForm _ c ⟨6⟩ form (List.mem_singleton_self c) hsix hanswer)
  have hs := hrun.denotations new_coherent hnone
  have hlt₆ : (⟨6⟩ : ExprId).index < form.unit.exprs.size := Nat.lt_trans (by decide) hlt
  obtain ⟨_, _, type?, after, -, -, hasked₆, -, hlifts, -, hlater₆⟩ := denotedType_exact hs hlt₆
  have hs₆ := hs.tail (.denotedType _ ⟨6⟩ type? after hlt₆ hasked₆)
  have hlt₁₀ : (⟨10⟩ : ExprId).index < after.exprs.size := by rwa [hlifts.exprs_eq]
  obtain ⟨leaf, outer, again?, last, htrail, hleaf, hasked₁₀, hexact, -, -, hlater₁₀⟩ :=
    denotedType_exact hs₆ hlt₁₀
  have hstep₁₀ := Denotation.denotedType _ ⟨10⟩ again? last hlt₁₀ hasked₁₀
  dsimp only at hasked₆ hasked₁₀
  simp only [hasked₆, hasked₁₀, Except.toOption, Option.bind_some, Option.map_some,
    Option.some.injEq, Prod.mk.injEq] at hasked
  obtain ⟨rfl, rfl, hdescend⟩ := hasked
  have hdown := functionResult?_leadsDown (new_denoted.denotations hs₆).1.unit.exprsDescend
  obtain ⟨rfl, rfl⟩ := Prod.mk.inj
    (hdescend.symm.trans (ExprId.descend_eq_of_trail hdown htrail hleaf))
  have hbase := (new_denoted.denotations (hs₆.tail hstep₁₀)).1.coherent.unit.baseExprs .int32
  rw [DenotesAround, hbase.expr_eq] at hexact
  obtain ⟨-, ⟨⟩, htypes, hspelled⟩ := hexact
  exact ⟨c, form, after, last, hc, hanswer, hvalue, hasked₆, hasked₁₀, htypes, hspelled,
    (hlater₆ _ (.single hstep₁₀)).1, (hlater₁₀ _ .refl).1⟩

end Session

end FrontEnd
