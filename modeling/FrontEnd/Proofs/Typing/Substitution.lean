import FrontEnd.Proofs.Typing.Answers
import FrontEnd.Proofs.Typing.Repetition

/-! # Constant forms are substituted forms

The constant form of function type expressions around a leaf has as many of them, at the same
positions, around what the leaf is replaced by. Nothing that was found before changes this. -/

namespace FrontEnd

variable {hash : Hasher}

/-- A checker knows some constants and no others. -/
structure Checker.Knows (constants : Constants) (c : Checker hash) : Prop where
  scopes : c.scopes.WellFormed
  lookup_eq : ∀ name, c.scopes.lookup name = constants name

theorem Checker.Knows.fits {constants : Constants} {c : Checker hash} (h : c.Knows constants) :
    c.Fits constants :=
  ⟨h.scopes, fun name _ hname => h.lookup_eq name ▸ hname⟩

namespace CompilationUnit

variable {constants : Constants} {u v : CompilationUnit hash} {c : Checker hash} {id leaf : ExprId}
  {outer : List ExprId} {form : Option ExprId} {answer : Answer hash (Option ExprId)}

/-! ## Memo-free forms -/

def positions (u : CompilationUnit hash) (nodes : List ExprId) : List Position :=
  nodes.map fun id => (u.expr id).pos

/-- What a leaf is replaced by: a name by its value, if it is a constant. Returns have no form. -/
def leafForm (constants : Constants) (u : CompilationUnit hash) (leaf : ExprId) :
    Except TypingError (Option ExprId) :=
  match u.expr leaf with
  | ⟨.intLiteral _, _⟩ | ⟨.baseType _, _⟩ => .ok (some leaf)
  | ⟨.name name, pos⟩ =>
    match constants name with
    | some binding => .ok (some binding.value)
    | none => .error (.unknownName name pos)
  | ⟨.return_ _, _⟩ | ⟨.functionType _, _⟩ => .ok none

/-- What is answered about function type expressions around a leaf: an error about the leaf, which
leaves the unit as it is, or that there is no form, or as many function type expressions, at the
same positions, around what the leaf is replaced by. -/
inductive Substituted (constants : Constants) (u : CompilationUnit hash) (leaf : ExprId)
    (outer : List ExprId) : Answer hash (Option ExprId) → Prop where
  | error {e : TypingError} : u.leafForm constants leaf = .error e →
      Substituted constants u leaf outer ⟨.error e, u⟩
  | formless {after : CompilationUnit hash} : u.leafForm constants leaf = .ok none →
      Substituted constants u leaf outer ⟨.ok none, after⟩
  | form {after : CompilationUnit hash} {base made : ExprId} {copies : List ExprId} :
      u.leafForm constants leaf = .ok (some base) →
      Trail after.functionResult? base copies made →
      after.positions copies = u.positions outer →
      Substituted constants u leaf outer ⟨.ok (some made), after⟩

/-- Two expressions are as many function type expressions, at the same positions, around the same
expression. -/
def SameForm (u : CompilationUnit hash) (a b : ExprId) : Prop :=
  ∃ base outer outer', Trail u.functionResult? base outer a ∧
    Trail u.functionResult? base outer' b ∧ u.positions outer = u.positions outer'

/-- Without function type expressions around it, a leaf is just replaced. -/
theorem Substituted.value_of_leaf (h : u.Substituted constants leaf [] answer) :
    answer.value = u.leafForm constants leaf := by
  cases h with
  | error hleaf => exact hleaf.symm
  | formless hleaf => exact hleaf.symm
  | @form after base made copies hleaf htrail hpositions =>
      obtain rfl : copies = [] := List.map_eq_nil_iff.mp hpositions
      cases htrail
      exact hleaf.symm

/-- An error is about the leaf. -/
theorem Substituted.leafForm_eq_error (h : u.Substituted constants leaf outer answer)
    {e : TypingError} (hvalue : answer.value = .error e) :
    u.leafForm constants leaf = .error e := by
  cases h with
  | error hleaf =>
      cases hvalue
      exact hleaf
  | formless => cases hvalue
  | form => cases hvalue

theorem Substituted.eq_of_error (h : u.Substituted constants leaf outer answer) {e : TypingError}
    (hleaf : u.leafForm constants leaf = .error e) : answer = ⟨.error e, u⟩ := by
  cases h with
  | error hother =>
      cases hother.symm.trans hleaf
      rfl
  | formless hother => cases hother.symm.trans hleaf
  | form hother => cases hother.symm.trans hleaf

/-- If the constants stand for base types, what a leaf is replaced by stays itself. -/
theorem leafForm_of_leafForm
    (hvalues : ∀ name binding, constants name = some binding →
      ∃ kind pos, u.Holds binding.value (.baseType kind) pos)
    {base : ExprId} (h : u.leafForm constants leaf = .ok (some base)) :
    u.functionResult? base = none ∧ u.leafForm constants base = .ok (some base) := by
  unfold leafForm at h
  split at h
  · rename_i value pos hexpr
    cases h
    simp only [functionResult?, leafForm, hexpr, and_self]
  · rename_i kind pos hexpr
    cases h
    simp only [functionResult?, leafForm, hexpr, and_self]
  · split at h
    · rename_i binding hbinding
      cases h
      obtain ⟨kind, pos, hholds⟩ := hvalues _ _ hbinding
      simp only [functionResult?, leafForm, hholds.expr_eq, and_self]
    · cases h
  · cases h
  · cases h

theorem Form.leafForm_eq (h : u.Form constants leaf form) (hleaf : u.functionResult? leaf = none) :
    u.leafForm constants leaf = .ok form := by
  have hnot : ∀ result pos, ¬ u.Holds leaf (.functionType result) pos := by
    intro result pos hholds
    rw [functionResult?_eq_some_iff.mpr ⟨pos, hholds⟩] at hleaf
    cases hleaf
  cases h with
  | literal hid => simp only [leafForm, hid.expr_eq]
  | baseType hid => simp only [leafForm, hid.expr_eq]
  | name hid hname => simp only [leafForm, hid.expr_eq, hname]
  | return_ hid => simp only [leafForm, hid.expr_eq]
  | function hid => exact absurd hid (hnot _ _)
  | formless hid => exact absurd hid (hnot _ _)

/-- The form of function type expressions follows from that of their leaf. -/
theorem Form.of_trail (htrail : Trail u.functionResult? leaf outer id)
    (h : u.Form constants id form) :
    u.Form constants leaf none ∧ form = none ∨
      ∃ base made copies, u.Form constants leaf (some base) ∧ form = some made ∧
        Trail u.functionResult? base copies made ∧ u.positions copies = u.positions outer := by
  induction htrail with
  | stay id =>
      cases form with
      | none => exact .inl ⟨h, rfl⟩
      | some made => exact .inr ⟨made, made, [], h, rfl, .stay made, rfl⟩
  | @out leaf next top rest hnext _ ih =>
      obtain ⟨pos, hholds⟩ := functionResult?_eq_some_iff.mp hnext
      rcases ih h with ⟨hinner, hform⟩ | ⟨base, made, copies, hinner, hform, hcopies, hpositions⟩
      · rcases hinner.of_holds hholds with ⟨-, hleaf⟩ | ⟨_, _, hsome, -⟩
        · exact .inl ⟨hleaf, hform⟩
        · cases hsome
      · rcases hinner.of_holds hholds with ⟨hnone, -⟩ | ⟨inner, _, hsome, hleaf, hbase⟩
        · cases hnone
        · cases hsome
          have hresult := functionResult?_eq_some_iff.mpr ⟨pos, hbase⟩
          refine .inr ⟨inner, made, base :: copies, hleaf, hform, .out hresult hcopies, ?_⟩
          simp only [positions, List.map_cons, hbase.expr_eq, hholds.expr_eq] at hpositions ⊢
          rw [hpositions]

/-- Every expression is function type expressions around a leaf. -/
theorem Evaluable.exists_leaf (h : u.Evaluable constants) (id : ExprId) :
    ∃ leaf outer, Trail u.functionResult? leaf outer id ∧ u.functionResult? leaf = none ∧
      leaf.index ≤ id.index := by
  have hdown := h.functionResult?_leadsDown
  obtain ⟨htrail, hleaf⟩ := ExprId.descend_spec hdown (.stay id)
  exact ⟨_, _, htrail, hleaf, htrail.index_le hdown⟩

theorem Grown.functionResult?_trail (hgrown : u.Grown v)
    (htrail : Trail u.functionResult? leaf outer id) : Trail v.functionResult? leaf outer id :=
  htrail.congr fun _ _ _ hinner => hgrown.functionResult? hinner

theorem Grown.leafForm_eq (hgrown : u.Grown v) (hleaf : leaf.index < u.exprs.size) :
    v.leafForm constants leaf = u.leafForm constants leaf := by
  rw [leafForm, hgrown.expr_eq hleaf, leafForm]

theorem Grown.positions_eq (hgrown : u.Grown v) {nodes : List ExprId}
    (hnodes : ∀ id ∈ nodes, id.index < u.exprs.size) : v.positions nodes = u.positions nodes :=
  List.map_congr_left fun id hid => by rw [hgrown.expr_eq (hnodes id hid)]

end CompilationUnit

namespace Checker

open CompilationUnit

variable {constants : Constants} {u v : CompilationUnit hash} {c d : Checker hash}
  {id leaf : ExprId} {outer : List ExprId}

/-! ## Evaluation -/

/-- The expressions that are pending are some of the function type expressions around a leaf. -/
theorem length_pending_le (h : u.Evaluable constants)
    (htrail : Trail u.functionResult? leaf outer id) (hleaf : u.functionResult? leaf = none) :
    (id.descend (pendingResult? u) []).1.length ≤
      outer.countP fun node => (u.findingsOf node).constantForm.isNone := by
  have hdown := h.functionResult?_leadsDown
  obtain ⟨hpending, -⟩ := ExprId.descend_spec (pendingResult?_leadsDown h) (.stay id)
  generalize id.descend (pendingResult? u) [] = reached at hpending ⊢
  obtain ⟨passed, inner⟩ := reached
  -- what is left below the pending expressions is where they end
  obtain ⟨hinside, hstop⟩ := ExprId.descend_spec hdown (.stay inner)
  have hwhole := hinside.trans (functionResult?_trail_of_pending hpending)
  have hsplit := (ExprId.descend_eq_of_trail hdown htrail hleaf).symm.trans
    (ExprId.descend_eq_of_trail hdown hwhole hstop)
  obtain ⟨rfl, -⟩ := Prod.mk.inj hsplit
  have hall : ∀ node ∈ passed, (u.findingsOf node).constantForm.isNone = true := by
    intro node hnode
    obtain ⟨result, hresult⟩ := hpending.exists_inner_of_mem hnode
    rw [(pendingResult?_eq_some_iff.mp hresult).1]
    rfl
  rw [List.countP_append, List.countP_eq_length.mpr hall]
  exact Nat.le_add_left _ _

/-- A form that was found is the substituted form. -/
theorem substituted_of_found (h : u.Evaluable constants) (hv : v.Evaluable constants)
    (hgrown : u.Grown v) (hid : id.index < u.exprs.size)
    (htrail : Trail u.functionResult? leaf outer id) (hleaf : u.functionResult? leaf = none)
    {form : Option ExprId} (hfound : (v.findingsOf id).constantForm = some form) :
    u.Substituted constants leaf outer ⟨.ok form, v⟩ := by
  have hdown := h.functionResult?_leadsDown
  have hlt := Nat.lt_of_le_of_lt (htrail.index_le hdown) hid
  have houter : ∀ node ∈ outer, node.index < u.exprs.size := fun node hnode =>
    Nat.lt_of_le_of_lt (htrail.index_of_mem hdown hnode).2 hid
  have hleaf' := (hgrown.functionResult?_eq hlt).trans hleaf
  rcases (hv.forms id form hfound).of_trail (hgrown.functionResult?_trail htrail) with
    ⟨hinner, rfl⟩ | ⟨base, made, copies, hinner, rfl, hcopies, hpositions⟩
  · exact .formless ((hgrown.leafForm_eq hlt).symm.trans (hinner.leafForm_eq hleaf'))
  · exact .form ((hgrown.leafForm_eq hlt).symm.trans (hinner.leafForm_eq hleaf')) hcopies
      (hpositions.trans (hgrown.positions_eq houter))

/-- A name that is no constant is the leaf, and reported. -/
theorem substituted_of_unknown (h : u.Evaluable constants)
    (htrail : Trail u.functionResult? leaf outer id) (hleaf : u.functionResult? leaf = none)
    {other : ExprId} {name : Name} {pos : Position} (hother : u.FunctionsTo id other)
    (hname : u.Holds other (.name name) pos) (hnone : constants name = none) :
    u.Substituted constants leaf outer ⟨.error (.unknownName name pos), u⟩ := by
  have hdown := h.functionResult?_leadsDown
  have hstop : u.functionResult? other = none := by rw [functionResult?, hname.expr_eq]
  obtain ⟨passed, hother⟩ := hother
  have hsame := (ExprId.descend_eq_of_trail hdown htrail hleaf).symm.trans
    (ExprId.descend_eq_of_trail hdown hother hstop)
  obtain ⟨-, rfl⟩ := Prod.mk.inj hsame
  exact .error (by simp only [leafForm, hname.expr_eq, hnone])

/-- Evaluation gives the substituted form, whatever was evaluated before. It makes at most one
expression for each function type expression that was not evaluated yet. -/
theorem constantForm_substituted (h : u.Evaluable constants) (hc : c.Knows constants)
    (hid : id.index < u.exprs.size) (htrail : Trail u.functionResult? leaf outer id)
    (hleaf : u.functionResult? leaf = none) :
    ∃ answer, c.constantForm u id = .ok answer ∧ answer.unit.Evaluable constants ∧
      u.Evaluates answer.unit ∧ u.Substituted constants leaf outer answer ∧
      answer.unit.exprs.size ≤
        u.exprs.size + outer.countP (fun node => (u.findingsOf node).constantForm.isNone) ∧
      ∀ form, answer.value = .ok form →
        (answer.unit.findingsOf id).constantForm = some form := by
  obtain ⟨⟨value, v⟩, hanswer, hafter, hevaluates, hcases⟩ := constantForm_evaluates h hc.fits hid
  have hsize := (constantForm_adds hanswer).exprs_le.trans
    (Nat.add_le_add_left (length_pending_le h htrail hleaf) _)
  refine ⟨⟨value, v⟩, hanswer, hafter, hevaluates, ?_, hsize, ?_⟩ <;> dsimp only at hcases ⊢
  · rcases hcases with ⟨form, rfl, hfound⟩ |
      ⟨rfl, other, name, pos, rfl, hother, hname, hnone⟩
    · exact substituted_of_found h hafter hevaluates.toGrown hid htrail hleaf hfound
    · exact substituted_of_unknown h htrail hleaf hother hname
        ((hc.lookup_eq name).symm.trans hnone)
  · intro form hok
    rcases hcases with ⟨found, rfl, hfound⟩ | ⟨-, _, _, _, rfl, -⟩
    · cases hok
      exact hfound
    · cases hok

/-- An answer is given again in all later units, and nothing changes. -/
theorem constantForm_again (hu : u.Evaluable constants) (hv : v.Evaluable constants)
    (hc : c.Knows constants) (hd : d.Knows constants) (hid : id.index < u.exprs.size)
    {answer : Answer hash (Option ExprId)} (hok : c.constantForm u id = .ok answer)
    (hgrown : answer.unit.Grown v) : d.constantForm v id = .ok ⟨answer.value, v⟩ := by
  obtain ⟨leaf, outer, htrail, hleaf, hinside⟩ := hu.exists_leaf id
  obtain ⟨answer', hanswer, -, hevaluates, hsubstituted, -, hfound⟩ :=
    constantForm_substituted hu hc hid htrail hleaf
  obtain rfl := Except.ok.inj (hanswer.symm.trans hok)
  have hlater := hevaluates.toGrown.trans hgrown
  cases hvalue : answer'.value with
  | ok form =>
      exact constantForm_of_found (Nat.lt_of_lt_of_le hid hlater.exprs.size_le)
        ((hgrown.findings id).constantForm form (hfound form hvalue))
  | error e =>
      -- the leaf is the same, and it still is not in scope
      have hlt := Nat.lt_of_le_of_lt hinside hid
      obtain ⟨again, hagain, -, -, hsame, -⟩ := constantForm_substituted hv hd
        (Nat.lt_of_lt_of_le hid hlater.exprs.size_le) (hlater.functionResult?_trail htrail)
        ((hlater.functionResult?_eq hlt).trans hleaf)
      rw [hagain, hsame.eq_of_error
        ((hlater.leafForm_eq hlt).trans (hsubstituted.leafForm_eq_error hvalue))]

/-- The constant form of a constant form is a copy of it. -/
theorem constantForm_of_form (h : u.Evaluable constants) (hc : c.Knows constants)
    {base made : ExprId} {copies : List ExprId} (hmade : made.index < u.exprs.size)
    (htrail : Trail u.functionResult? base copies made) (hstop : u.functionResult? base = none)
    (hbase : u.leafForm constants base = .ok (some base)) :
    ∃ twin after, c.constantForm u made = .ok ⟨.ok (some twin), after⟩ ∧
      after.SameForm made twin := by
  obtain ⟨answer, hanswer, -, hevaluates, hsubstituted, -⟩ :=
    constantForm_substituted h hc hmade htrail hstop
  cases hsubstituted with
  | error hleaf => cases hleaf.symm.trans hbase
  | formless hleaf => cases hleaf.symm.trans hbase
  | @form after inner twin copies' hleaf htwin hpositions =>
      cases hleaf.symm.trans hbase
      have hgrown := hevaluates.toGrown
      refine ⟨twin, after, hanswer, base, copies, copies', hgrown.functionResult?_trail htrail,
        htwin, ?_⟩
      rw [hpositions]
      exact hgrown.positions_eq fun node hnode => Nat.lt_of_le_of_lt
        (htrail.index_of_mem h.functionResult?_leadsDown hnode).2 hmade

/-- Also in all later units the form of a constant form is a copy of it. -/
theorem constantForm_of_answer (hu : u.Evaluable constants) (hv : v.Evaluable constants)
    (hvalues : ∀ name binding, constants name = some binding →
      ∃ kind pos, v.Holds binding.value (.baseType kind) pos)
    (hc : c.Knows constants) (hd : d.Knows constants) (hid : id.index < u.exprs.size)
    {answer : Answer hash (Option ExprId)} (hok : c.constantForm u id = .ok answer)
    (hgrown : answer.unit.Grown v) {made : ExprId} (hmade : answer.value = .ok (some made)) :
    ∃ twin after, d.constantForm v made = .ok ⟨.ok (some twin), after⟩ ∧
      after.SameForm made twin := by
  obtain ⟨leaf, outer, htrail, hleaf, hinside⟩ := hu.exists_leaf id
  obtain ⟨answer', hanswer, hafter, hevaluates, hsubstituted, -, hfound⟩ :=
    constantForm_substituted hu hc hid htrail hleaf
  obtain rfl := Except.ok.inj (hanswer.symm.trans hok)
  have hlt := Nat.lt_of_le_of_lt hinside hid
  have hform := form_lt hafter (hafter.forms id _ (hfound _ hmade))
  cases hsubstituted with
  | error _ => cases hmade
  | formless _ => cases hmade
  | form hbase hcopies _ =>
      cases hmade
      have hleafForm := ((hevaluates.toGrown.trans hgrown).leafForm_eq hlt).trans hbase
      obtain ⟨hstop, hself⟩ := leafForm_of_leafForm hvalues hleafForm
      exact constantForm_of_form hv hd (Nat.lt_of_lt_of_le hform hgrown.exprs.size_le)
        (hgrown.functionResult?_trail hcopies) hstop hself

end Checker

end FrontEnd
