import FrontEnd.Proofs.BindingFrame
import FrontEnd.Proofs.CompilationUnit.Listing
import FrontEnd.Proofs.Grammar.Parsing

/-! # Items that are not bound yet

An item that was parsed and not bound since has no declaration, and the names inside its parts are
two expressions that refer to nothing. Then binding is answered. -/

namespace FrontEnd.CompilationUnit

variable {hash : Hasher} {constants more : Constants} {u v w : CompilationUnit hash} {item : ItemId}
  {function : FunctionItem} {id : ExprId} {depth : Nat}

/-! ## Names inside of others -/

theorem innermost_of_links (h : u.Sound constants) {first : Nat}
    (hlinks : Links u.child? first id.index) : u.innermost id = ⟨first⟩ := by
  obtain ⟨outer, htrail⟩ := (hlinks.exists_trail_iff ⟨first⟩).mpr ⟨Nat.le_refl _, hlinks.le⟩
  exact innermost_of_trail h htrail hlinks.innermost

theorem LegibleItem.partOf (h : u.LegibleItem item function) (hid : u.PartOf function id) :
    ∃ depth, u.Legible depth id := by
  obtain ⟨signatureDepth, hsignature⟩ := h.signature
  obtain ⟨bodyDepth, hbody⟩ := h.body
  obtain ⟨top, outer, rfl | rfl, htrail⟩ := hid
  · obtain ⟨depth, hlegible, -⟩ := hsignature.of_trail htrail
    exact ⟨depth, hlegible⟩
  · obtain ⟨depth, hlegible, -⟩ := hbody.of_trail htrail
    exact ⟨depth, hlegible⟩

/-! ## Unbound items -/

/-- The names inside the parts of an item are two expressions that refer to nothing. -/
structure Unresolved (u : CompilationUnit hash) (function : FunctionItem) : Prop where
  signature : (u.findingsOf (u.innermost function.signature)).referent = none
  body : (u.findingsOf (u.innermost function.body)).referent = none
  apart : u.innermost function.signature ≠ u.innermost function.body

/-- An item that was neither declared nor resolved. -/
structure Unbound (u : CompilationUnit hash) (item : ItemId) (function : FunctionItem) : Prop
    extends
    Unresolved u function where
  lt : item.index < u.itemDeclarations.size
  declaration : u.itemDeclaration? item = none

/-- The names in an item refer to nothing, and each stands in only one of its parts. -/
structure Unreferred (u : CompilationUnit hash) (function : FunctionItem) : Prop where
  referent : ∀ id name pos, u.PartOf function id → u.Holds id (.name name) pos →
    (u.findingsOf id).referent = none
  once : ∀ id name pos outer outer', u.Holds id (.name name) pos →
    Trail u.child? id outer function.signature → ¬ Trail u.child? id outer' function.body

/-- An item that was not declared, with names that were not resolved. -/
structure Bindable (u : CompilationUnit hash) (item : ItemId) (function : FunctionItem) : Prop
    extends
    Unreferred u function where
  declaration : u.itemDeclaration? item = none

theorem Unbound.bindable (h : u.Unbound item function) (hu : u.Sound constants) :
    u.Bindable item function where
  declaration := h.declaration
  referent := by
    rintro id name pos ⟨top, outer, rfl | rfl, htrail⟩ hname
    · rw [← innermost_of_trail hu htrail (child?_of_holds hname)]
      exact h.signature
    · rw [← innermost_of_trail hu htrail (child?_of_holds hname)]
      exact h.body
  once id name pos outer outer' hname hsignature hbody :=
    h.apart ((innermost_of_trail hu hsignature (child?_of_holds hname)).trans
      (innermost_of_trail hu hbody (child?_of_holds hname)).symm)

/-- What is parsed as an item is not bound. -/
theorem TwoChains.unbound (h : u.TwoChains v function) (hu : u.Sound constants)
    (hv : v.Sound more) (hdeclarations : u.itemDeclarations.size = u.items.size) :
    v.Unbound ⟨u.items.size⟩ function := by
  have hsignature := innermost_of_links hv h.signature
  have hbody := innermost_of_links hv h.body
  have hle := h.signature.le
  have hnothing : ∀ id : ExprId, u.exprs.size ≤ id.index → (v.findingsOf id).referent = none := by
    intro id hid
    rw [h.findingsOf_eq, findingsOf_eq_of_ge (hu.findings_size ▸ hid)]
  refine ⟨⟨?_, ?_, ?_⟩, ?_, ?_⟩
  · rw [hsignature]
    exact hnothing _ (Nat.le_refl _)
  · rw [hbody]
    exact hnothing _ (Nat.le_succ_of_le hle)
  · rw [hsignature, hbody]
    intro heq
    have hindex := congrArg ExprId.index heq
    dsimp only at hindex
    omega
  · rw [h.itemDeclarations_eq, Array.size_push]
    exact hdeclarations ▸ Nat.lt_succ_self _
  · simp [itemDeclaration?, h.itemDeclarations_eq, ← hdeclarations]

/-- Questions bind nothing. -/
theorem Unbound.queried (h : u.Unbound item function) (hu : u.Sound constants)
    (hv : v.Sound more) (hqueried : u.Queried v) (hitem : u.HoldsItem item function) :
    v.Unbound item function := by
  obtain ⟨hsignature, hbody⟩ := hu.items item function hitem
  have hsignature := hqueried.toGrown.innermost_eq hu hv hsignature
  have hbody := hqueried.toGrown.innermost_eq hu hv hbody
  refine ⟨⟨?_, ?_, ?_⟩, ?_, ?_⟩
  · rw [hsignature, hqueried.referent_eq]
    exact h.signature
  · rw [hbody, hqueried.referent_eq]
    exact h.body
  · rw [hsignature, hbody]
    exact h.apart
  · exact hqueried.itemDeclarations_eq ▸ h.lt
  · rw [itemDeclaration?, hqueried.itemDeclarations_eq]
    exact h.declaration

/-- Making the standard prelude binds nothing. -/
theorem Unbound.prelude (h : u.Unbound item function) :
    (Prelude.standard u).2.Unbound item function :=
  ⟨⟨h.signature, h.body, h.apart⟩, h.lt, h.declaration⟩

/-! ## Binding -/

/-- The name inside an expression is resolved if it refers to nothing yet. -/
theorem resolveName_answered (h : u.Sound constants) (hid : id.index < u.exprs.size)
    (hnone : ∀ name pos, u.Holds (u.innermost id) (.name name) pos →
      (u.findingsOf (u.innermost id)).referent = none) (table : Bindings hash) :
    ∃ answer v, u.resolveName table id = .ok (answer, v) ∧
      ∀ other, other ≠ u.innermost id → v.findingsOf other = u.findingsOf other := by
  have hlt := innermost_lt h hid
  have hholds := holds_expr hlt
  rw [resolveName, checkIndex_bind_of_lt hid]
  generalize u.innermost id = leaf at hnone hlt hholds ⊢
  dsimp only
  split
  · rename_i name pos hexpr
    rw [hexpr] at hholds
    split
    · exact ⟨_, u, rfl, fun _ _ => rfl⟩
    · rename_i decl _
      obtain ⟨v, hv⟩ :=
        exists_record .referent (h.findings_size ▸ hlt) (hnone name pos hholds) decl
      refine ⟨_, v, Except.bind_eq_ok_iff.mpr ⟨v, hv, rfl⟩, fun other hother => ?_⟩
      rw [(recorded_record hv).findingsOf_eq, if_neg hother]
  · exact ⟨_, u, rfl, fun _ _ => rfl⟩

theorem Unreferred.resolveParts_answered (hunreferred : u.Unreferred function)
    (h : u.Sound constants) (hsignature : function.signature.index < u.exprs.size)
    (hbody : function.body.index < u.exprs.size) (table : Bindings hash) :
    ∃ answer v, u.resolveParts table function = .ok (answer, v) := by
  obtain ⟨outer, htrail⟩ := innermost_trail h function.signature
  obtain ⟨outer', htrail'⟩ := innermost_trail h function.body
  obtain ⟨answer, v, hfirst, hothers⟩ := resolveName_answered h hsignature
    (fun name pos => hunreferred.referent _ name pos ⟨_, outer, .inl rfl, htrail⟩) table
  unfold resolveParts
  rw [hfirst]
  cases answer with
  | error e => exact ⟨_, v, rfl⟩
  | ok done =>
      obtain ⟨hsound, hgrown, -⟩ := resolveName_spec h hsignature hfirst
      have hinnermost := hgrown.innermost_eq h hsound hbody
      -- the name in the body is not the one that was resolved
      have hnone : ∀ name pos, v.Holds (v.innermost function.body) (.name name) pos →
          (v.findingsOf (v.innermost function.body)).referent = none := by
        intro name pos hname
        rw [hinnermost] at hname ⊢
        have hbefore := (hgrown.holds_iff (innermost_lt h hbody)).mp hname
        have hne : u.innermost function.body ≠ u.innermost function.signature := by
          intro heq
          rw [← heq] at htrail
          exact hunreferred.once _ name pos outer outer' hbefore htrail htrail'
        rw [hothers _ hne]
        exact hunreferred.referent _ name pos ⟨_, outer', .inr rfl, htrail'⟩ hbefore
      obtain ⟨answer, w, hsecond, -⟩ :=
        resolveName_answered hsound (Nat.lt_of_lt_of_le hbody hgrown.exprs.size_le) hnone table
      exact ⟨answer, w, hsecond⟩

/-- A declared item is resolved, or a name in it is unbound. -/
theorem Unreferred.resolve_answered (hunreferred : u.Unreferred function) (h : u.Sound constants)
    (hitem : u.HoldsItem item function) {decl : DeclId}
    (hdecl : u.itemDeclaration? item = some decl) {table : Bindings hash}
    (htable : table.WellFormed) :
    ∃ resolution, u.resolve item table = .ok resolution := by
  obtain ⟨hsignature, hbody⟩ := h.items item function hitem
  obtain ⟨inside, hinside, hinsideFormed, -, hopen, -⟩ := htable.push_insert function.name decl
  obtain ⟨outside, hpop, -⟩ := hinsideFormed.pop hopen
  obtain ⟨answer, v, hparts⟩ := hunreferred.resolveParts_answered h hsignature hbody inside
  refine ⟨⟨answer, v, outside⟩, resolve_eq_ok_iff.mpr
    ⟨hitem.lt, decl, inside, hdecl, ?_, ?_, hpop⟩⟩
  · rw [hitem.item_eq, hinside]
  · rw [hitem.item_eq, hparts]

/-- An item that is not bound yet is bound, or a name in it is unbound. -/
theorem Bindable.bind_answered (hbindable : u.Bindable item function) (h : u.Sound constants)
    (hitem : u.HoldsItem item function) (hlt : item.index < u.itemDeclarations.size)
    {prelude : Prelude} {table : Bindings hash} (htable : Bindings.ofPrelude prelude = .ok table)
    (hwellFormed : table.WellFormed) : ∃ answer v, u.bind item prelude = .ok (answer, v) := by
  obtain ⟨v, hv⟩ : ∃ v, u.declareItem item = .ok v :=
    ⟨_, declareItem_eq_ok_iff.mpr ⟨h.declarable hitem hlt hbindable.declaration, rfl⟩⟩
  obtain ⟨hsound, hgrown, -⟩ := declareItem_spec h hv
  obtain ⟨-, hdeclared⟩ := declareItem_eq_ok_iff.mp hv
  have hunreferred : v.Unreferred function := by
    rw [hdeclared]
    exact ⟨hbindable.referent, hbindable.once⟩
  have hdecl : v.itemDeclaration? item = some ⟨u.declarations.size⟩ := by
    simp [hdeclared, itemDeclaration?, Array.getD_eq_getD_getElem?, hlt]
  obtain ⟨resolution, hresolve⟩ :=
    hunreferred.resolve_answered hsound (hgrown.holdsItem hitem) hdecl hwellFormed
  exact ⟨resolution.answer, resolution.unit,
    bind_eq_ok_iff.mpr ⟨v, table, resolution, hv, htable, hresolve, rfl, rfl⟩⟩

/-! ## Names that are unbound -/

theorem resolveName_eq_error {table : Bindings hash} {name : Name} {pos : Position}
    (hok : u.resolveName table id = .ok (.error (.unbound name pos), v)) :
    u.expr (u.innermost id) = ⟨.name name, pos⟩ ∧ table.lookup name = none := by
  unfold resolveName at hok
  obtain ⟨-, hok⟩ := checkIndex_bind_eq_ok_iff.mp hok
  dsimp only at hok
  split at hok
  · rename_i found pos' hexpr
    split at hok
    · rename_i hlookup
      cases hok
      exact ⟨hexpr, hlookup⟩
    · obtain ⟨bound, -, hok⟩ := Except.bind_eq_ok_iff.mp hok
      cases hok
  · cases hok

theorem resolveParts_eq_error (h : u.Sound constants)
    (hsignature : function.signature.index < u.exprs.size)
    (hbody : function.body.index < u.exprs.size) {table : Bindings hash} {name : Name}
    {pos : Position} (hok : u.resolveParts table function = .ok (.error (.unbound name pos), v)) :
    table.lookup name = none ∧ ∃ leaf, u.PartOf function leaf ∧ u.Holds leaf (.name name) pos := by
  unfold resolveParts at hok
  split at hok
  · cases hok
  · rename_i e w hfirst
    cases hok
    obtain ⟨hexpr, hlookup⟩ := resolveName_eq_error hfirst
    obtain ⟨outer, htrail⟩ := innermost_trail h function.signature
    have hname := holds_expr (innermost_lt h hsignature)
    rw [hexpr] at hname
    exact ⟨hlookup, _, ⟨_, outer, .inl rfl, htrail⟩, hname⟩
  · rename_i w hfirst
    obtain ⟨hsound, hgrown, -⟩ := resolveName_spec h hsignature hfirst
    obtain ⟨hexpr, hlookup⟩ := resolveName_eq_error hok
    obtain ⟨outer, htrail⟩ := innermost_trail h function.body
    rw [hgrown.innermost_eq h hsound hbody] at hexpr
    have hlt := innermost_lt h hbody
    have hname := holds_expr (Nat.lt_of_lt_of_le hlt hgrown.exprs.size_le)
    rw [hexpr] at hname
    exact ⟨hlookup, _, ⟨_, outer, .inr rfl, htrail⟩, (hgrown.holds_iff hlt).mp hname⟩

/-- What is unbound is a name in the item that is neither its own nor in the prelude. -/
theorem bind_eq_error (h : u.Sound constants) (hitem : u.HoldsItem item function)
    {prelude : Prelude} {table : Bindings hash} (htable : Bindings.ofPrelude prelude = .ok table)
    (hwellFormed : table.WellFormed) {name : Name} {pos : Position}
    (hok : u.bind item prelude = .ok (.error (.unbound name pos), v)) :
    name ≠ function.name ∧ table.lookup name = none ∧
      ∃ leaf, u.PartOf function leaf ∧ u.Holds leaf (.name name) pos := by
  obtain ⟨declared, table', resolution, hdeclare, htable', hresolve, herror, -⟩ :=
    bind_eq_ok_iff.mp hok
  obtain rfl : table = table' := Except.ok.inj (htable.symm.trans htable')
  obtain ⟨hsound, hgrown, -⟩ := declareItem_spec h hdeclare
  obtain ⟨-, decl, inside, -, hinside, hparts, -⟩ := resolve_eq_ok_iff.mp hresolve
  rw [(hgrown.holdsItem hitem).item_eq] at hinside hparts
  obtain ⟨hsignature, hbody⟩ := hsound.items item function (hgrown.holdsItem hitem)
  rw [herror] at hparts
  obtain ⟨hlookup, leaf, hpart, hname⟩ := resolveParts_eq_error hsound hsignature hbody hparts
  obtain ⟨inside', hinside', -, -, -, hinsideLookup⟩ := hwellFormed.push_insert function.name decl
  obtain rfl : inside' = inside := Except.ok.inj (hinside'.symm.trans hinside)
  rw [hinsideLookup] at hlookup
  obtain ⟨hsignature', hbody'⟩ := h.items item function hitem
  have hpart' := (hgrown.partOf_iff hsound.exprsDescend hsignature' hbody').mp hpart
  split at hlookup
  · cases hlookup
  · rename_i hother
    exact ⟨hother, hlookup, leaf, hpart',
      (hgrown.holds_iff (hpart'.lt h hsignature' hbody')).mp hname⟩

/-- Only referents are recorded, and declarations of items. -/
structure Referred (u v : CompilationUnit hash) : Prop where
  names_eq : v.names = u.names
  sources_eq : v.sources = u.sources
  items_eq : v.items = u.items
  exprs_eq : v.exprs = u.exprs
  types_eq : v.types = u.types

theorem referred_of_stripped (h : v.stripped = u.stripped) : u.Referred v where
  names_eq := (congrArg names h :)
  sources_eq := (congrArg sources h :)
  items_eq := (congrArg items h :)
  exprs_eq := (congrArg exprs h :)
  types_eq := (congrArg types h :)

/-- An item that is not bound yet is bound, or a name in it that is known is unbound. -/
theorem Unbound.bind_answered (hunbound : u.Unbound item function) (h : u.Sound constants)
    (hitem : u.LegibleItem item function) {prelude : Prelude} {table : Bindings hash}
    (htable : Bindings.ofPrelude prelude = .ok table) (hwellFormed : table.WellFormed) :
    ∃ answer v, u.bind item prelude = .ok (answer, v) ∧ u.Referred v ∧
      v.declarations.size = u.declarations.size + 1 ∧
      ∀ name pos, answer = .error (.unbound name pos) → u.Knows name := by
  obtain ⟨answer, v, hanswer⟩ :=
    (hunbound.bindable h).bind_answered h hitem.item hunbound.lt htable hwellFormed
  obtain ⟨hstripped, hcount⟩ := bind_stripped hanswer
  refine ⟨answer, v, hanswer, referred_of_stripped hstripped, hcount, ?_⟩
  rintro name pos rfl
  obtain ⟨-, -, leaf, hpart, hname⟩ := bind_eq_error h hitem.item htable hwellFormed hanswer
  obtain ⟨depth, hlegible⟩ := hitem.partOf hpart
  exact hlegible.knows hname

end FrontEnd.CompilationUnit
