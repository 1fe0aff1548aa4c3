import FrontEnd.Proofs.Typing.ParsedItems

/-! # What the names in a bound item denote

The binder and the checker each look names up on their own. They agree on every constant, except
in an item that has the name of that constant: its own declaration hides the one of the prelude
from the binder, and not from the checker. -/

namespace FrontEnd.CompilationUnit

variable {hash : Hasher} {s t : Session hash} {prelude : Prelude} {item : ItemId}
  {function : FunctionItem} {u v : CompilationUnit hash}

/-! ## Items that are bound and checked -/

theorem literalUnit_holds {name : Name} (hname : name.index < 2) :
    (literalUnit name 0).HoldsItem ⟨0⟩ ⟨name, ⟨5⟩, ⟨7⟩, .start⟩ ∧
      (literalUnit name 0).Holds ⟨4⟩ (.name ⟨0⟩) .start ∧
      (literalUnit name 0).child? ⟨5⟩ = some ⟨4⟩ := by
  obtain ⟨index⟩ := name
  unfold HoldsItem Holds
  match index with
  | 0 => decide +kernel
  | 1 => decide +kernel
  | index + 2 => exact absurd hname (by simp)

/-- The unit after an item is bound and then checked, if both succeed. -/
def boundThenChecked? (u : CompilationUnit hash) (item : ItemId) (prelude : Prelude) :
    Option (CompilationUnit hash) :=
  match u.bind item prelude with
  | .ok (.ok (), bound) => bound.passed? item prelude
  | _ => none

theorem exists_run_of_boundThenChecked? (hs : s.Reachable) (hprelude : prelude ∈ s.preludes)
    (hitem : s.unit.HoldsItem item function)
    (h : s.unit.boundThenChecked? item prelude = some v) :
    ∃ bound checkers, s.unit.bind item prelude = .ok (.ok (), bound) ∧
      bound.check item prelude = .ok ⟨.ok (), v⟩ ∧
      Session.Run ⟨bound, s.preludes, s.checkers⟩ ⟨v, s.preludes, checkers⟩ ∧ s.unit.Grown v := by
  unfold boundThenChecked? at h
  split at h
  · rename_i bound hbind
    have hcheck := passed?_eq_some_iff.mp h
    obtain ⟨hsound, hgrown⟩ := hs.sound.run (hs.sound.bind_run hprelude hitem.lt hbind)
    obtain ⟨checkers, hrun⟩ := hsound.check_run hprelude (hgrown.holdsItem hitem).lt hcheck
    exact ⟨bound, checkers, hbind, hcheck, hrun, hgrown.trans (hsound.run hrun).2⟩
  · cases h

/-! ## Agreement -/

/-- Checks may come before the binding, in the run to `s`, or after it, in the run to `t`. -/
theorem bind_referent_of_constantForm (hs : s.Reachable) (hprelude : prelude ∈ s.preludes)
    (hitem : s.unit.HoldsItem item function) (hbind : s.unit.bind item prelude = .ok (.ok (), u))
    (hrun : Session.Run ⟨u, s.preludes, s.checkers⟩ t) :
    ∃ entry decl, prelude.entries = [entry] ∧ t.unit.itemDeclaration? item = some decl ∧
      t.unit.HoldsDecl decl ⟨function.name, .function item⟩ ∧
      ∀ id name pos form, t.unit.PartOf function id → t.unit.Holds id (.name name) pos →
        (t.unit.findingsOf id).constantForm = some form →
        (∃ value type, form = some value ∧ name = entry.name ∧
          t.unit.HoldsDecl entry.constant ⟨entry.name, .constant value type⟩) ∧
        (t.unit.findingsOf id).referent =
          some (if function.name = entry.name then decl else entry.binding) := by
  have hsound := hs.sound
  obtain ⟨hsignature, hbody⟩ := hsound.unit.items item function hitem
  obtain ⟨hafter, hgrown⟩ :=
    (hsound.run (hsound.bind_run hprelude hitem.lt hbind)).1.run hrun
  have hgrownAll : s.unit.Grown t.unit := (bind_spec hsound.unit hitem hbind).2.1.trans hgrown
  obtain ⟨name, binding, constant, hentries, hname, hbinding, hconstant⟩ :=
    hsound.preludes prelude hprelude
  obtain ⟨decl, hdecl, hholds, hreferent⟩ := bind_referent hsound.unit hitem hentries hbind
  refine ⟨⟨name, binding, constant⟩, decl, hentries, hgrown.itemDeclaration _ _ hdecl,
    hgrown.holdsDecl hholds, fun id used pos form hpart hid hform => ?_⟩
  -- the item and its expressions were there before it was bound
  have hpart' := (hgrownAll.partOf_iff hafter.unit.exprsDescend hsignature hbody).mp hpart
  have hid' := (hgrownAll.holds_iff (hpart'.lt hsound.unit hsignature hbody)).mp hid
  have hfound := (hgrown.findings id).referent _ (hreferent id used pos hpart' hid').2
  cases hafter.unit.forms id form hform with
  | name hother hbound =>
      cases (hid.unique hother).1
      obtain ⟨htext, rfl⟩ := standardConstants_eq_some_iff.mp hbound
      obtain rfl := hafter.unit.names.name_unique htext (hgrownAll.names.text? hname)
      refine ⟨⟨_, _, rfl, rfl, hgrownAll.holdsDecl hconstant⟩, ?_⟩
      simpa only [eq_comm] using hfound
  | literal hother => cases (hid.unique hother).1
  | baseType hother => cases (hid.unique hother).1
  | return_ hother => cases (hid.unique hother).1
  | function hother _ _ => cases (hid.unique hother).1
  | formless hother _ => cases (hid.unique hother).1

/-- The result of a function with a name of its own refers to the prelude. -/
theorem bind_literalUnit_referent : ∃ v,
    (literalUnit ⟨1⟩ 0).boundThenChecked? ⟨0⟩ Prelude.initial = some v ∧
      (v.findingsOf ⟨4⟩).constantForm = some (some BaseType.int32.exprId) ∧
      (v.findingsOf ⟨4⟩).referent = some ⟨0⟩ := by
  have hresult : ((literalUnit ⟨1⟩ 0).boundThenChecked? ⟨0⟩ Prelude.initial).map
      (fun v => (v.findingsOf ⟨4⟩).constantForm) = some (some (some BaseType.int32.exprId)) := by
    decide +kernel
  obtain ⟨v, hv, hform⟩ := Option.map_eq_some_iff.mp hresult
  have hs := literalUnit_reachable (by decide : (⟨1⟩ : Name).index < 2) 0
  have hprelude := List.mem_singleton_self Prelude.initial
  obtain ⟨hitem, hname, hinside⟩ := literalUnit_holds (by decide : (⟨1⟩ : Name).index < 2)
  obtain ⟨bound, checkers, hbind, -, hrun, hgrown⟩ :=
    exists_run_of_boundThenChecked? hs hprelude hitem hv
  obtain ⟨entry, decl, hentries, -, -, hnames⟩ :=
    bind_referent_of_constantForm hs hprelude hitem hbind hrun
  have hreferent := (hnames ⟨4⟩ ⟨0⟩ .start _
    ⟨_, [⟨5⟩], .inl rfl, hgrown.trail (.out hinside (.stay _))⟩ (hgrown.holds hname) hform).2
  cases hentries
  exact ⟨v, hv, hform, hreferent⟩

/-- The binder and the checker disagree about a constant in a function that has its name. -/
theorem not_forall_bind_referent :
    ¬ ∀ (hash : Hasher) (s : Session hash) (prelude : Prelude) (entry : PreludeName)
      (tokens : List Token) (item : ItemId) (function : FunctionItem)
      (parsed bound : CompilationUnit hash) (answer : Answer hash Unit) (id value : ExprId)
      (type : TypeId) (pos : Position), s.Reachable → prelude ∈ s.preludes →
      entry ∈ prelude.entries →
      s.unit.parse tokens = (.ok item, parsed) → parsed.HoldsItem item function →
      parsed.bind item prelude = .ok (.ok (), bound) → bound.check item prelude = .ok answer →
      answer.value = .ok () → answer.unit.PartOf function id →
      answer.unit.Holds id (.name entry.name) pos →
      answer.unit.HoldsDecl entry.constant ⟨entry.name, .constant value type⟩ →
      (answer.unit.findingsOf id).constantForm = some (some value) →
      (answer.unit.findingsOf id).referent = some entry.binding := by
  intro hrefersToPrelude
  have hresult : ((literalUnit ⟨0⟩ 0).boundThenChecked? ⟨0⟩ Prelude.initial).map
      (fun v => ((v.findingsOf ⟨4⟩).constantForm, (v.findingsOf ⟨4⟩).referent)) =
        some (some (some BaseType.int32.exprId), some ⟨2⟩) := by
    decide +kernel
  obtain ⟨v, hv, hfound⟩ := Option.map_eq_some_iff.mp hresult
  obtain ⟨hform, hreferent⟩ := Prod.mk.inj hfound
  have hparse : twoNames.parse (literalFunction ⟨0⟩ 0) = (.ok ⟨0⟩, literalUnit ⟨0⟩ 0) :=
    Prod.ext (by decide +kernel) rfl
  have hprelude := List.mem_singleton_self Prelude.initial
  obtain ⟨hitem, hname, hinside⟩ := literalUnit_holds (by decide : (⟨0⟩ : Name).index < 2)
  have hconstant : (literalUnit ⟨0⟩ 0).HoldsDecl ⟨1⟩
      ⟨⟨0⟩, .constant BaseType.int32.exprId BaseType.type.typeId⟩ := by
    unfold HoldsDecl
    decide +kernel
  obtain ⟨bound, checkers, hbind, hcheck, -, hgrown⟩ :=
    exists_run_of_boundThenChecked? (literalUnit_reachable (by decide) 0) hprelude hitem hv
  have hsame := hrefersToPrelude _ _ _ ⟨⟨0⟩, ⟨0⟩, ⟨1⟩⟩ _ _ _ _ bound ⟨.ok (), v⟩ ⟨4⟩ _ _ .start
    twoNames_reachable hprelude (List.mem_singleton_self _)
    hparse hitem hbind hcheck rfl
    ⟨_, [⟨5⟩], .inl rfl, hgrown.trail (.out hinside (.stay _))⟩ (hgrown.holds hname)
    (hgrown.holdsDecl hconstant) hform
  rw [hreferent] at hsame
  cases hsame

end FrontEnd.CompilationUnit
