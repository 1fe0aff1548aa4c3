import FrontEnd.Proofs.Typing.DenotedTypes

/-! # Questions in sound units

Every question about an expression of a sound unit is answered, and leaves a sound unit in which
the answer is found. -/

namespace FrontEnd

variable {hash : Hasher}

namespace CompilationUnit

variable {constants : Constants} {u v : CompilationUnit hash}

theorem Sound.functionResult?_leadsDown (h : u.Sound constants) : LeadsDown u.functionResult? :=
  h.evaluable.functionResult?_leadsDown

end CompilationUnit

namespace Checker

open CompilationUnit

variable {constants : Constants} {u v : CompilationUnit hash} {c : Checker hash} {id : ExprId}

/-! ## Constant forms -/

/-- The constant form of an expression is found, unless its leaf is a name that is out of scope:
then nothing changes. -/
theorem constantForm_spec (h : u.Sound constants) (hfits : c.Fits constants)
    (hid : id.index < u.exprs.size) :
    ∃ answer, c.constantForm u id = .ok answer ∧ answer.unit.Sound constants ∧
      u.Asked answer.unit ∧
      ((∃ form, answer.value = .ok form ∧
        (answer.unit.findingsOf id).constantForm = some form) ∨
      (answer.unit = u ∧ ∃ leaf name pos, answer.value = .error (.unknownName name pos) ∧
        u.FunctionsTo id leaf ∧ u.Holds leaf (.name name) pos ∧
        c.scopes.lookup name = none)) := by
  obtain ⟨answer, hanswer, hafter, hevaluates, hcases⟩ :=
    constantForm_evaluates h.evaluable hfits hid
  exact ⟨answer, hanswer, h.evaluated hevaluates hafter, hevaluates.asked, hcases⟩

/-! ## Denoted types -/

/-- Whether an expression denotes a type is always found. -/
theorem denotedType_spec (h : u.Sound constants) (hid : id.index < u.exprs.size) :
    ∃ type v, denotedType u id = .ok (type, v) ∧ v.Sound constants ∧ u.Asked v ∧
      (v.findingsOf id).denotedType = some type := by
  obtain ⟨type, v, hv, hafter, hlifts, hfound, -⟩ := denotedType_lifts h.denotable hid
  exact ⟨type, v, hv, h.lifted hlifts hafter, hlifts.asked, hfound⟩

end Checker

end FrontEnd
