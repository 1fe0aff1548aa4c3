import FrontEnd.Proofs.Binding
import FrontEnd.Proofs.Typing.Stripped

/-! # What binding leaves alone

Binding records declarations and what expressions refer to. A unit that is stripped of these stays
as it is, and to a unit in which questions were asked meanwhile the same is added. -/

namespace FrontEnd

theorem map_modify_of_absorb {α β : Type} {f : α → α} {g : α → β} (xs : Array α) (i : Nat)
    (h : ∀ x, g (f x) = g x) : (xs.modify i f).map g = xs.map g := by
  apply Array.ext_getElem?
  intro j
  simp only [Array.getElem?_map, Array.getElem?_modify]
  split
  · cases xs[j]? with
    | none => rfl
    | some x => exact congrArg some (h x)
  · rfl

theorem Findings.eq_of_stripped {found found' : Findings} (h : found.stripped = found'.stripped)
    (hreferent : found.referent = found'.referent) : found = found' := by
  cases found
  cases found'
  simp only [stripped, Findings.mk.injEq, true_and] at h hreferent ⊢
  exact ⟨hreferent, h⟩

namespace CompilationUnit

variable {hash : Hasher} {constants more : Constants} {u v w : CompilationUnit hash} {item : ItemId}
  {function : FunctionItem} {id : ExprId} {decl : DeclId} {table : Bindings hash}
  {answer : Except BindingError Unit} {prelude : Prelude}

/-! ## Resolving -/

/-- Nothing is recorded but what expressions refer to. -/
structure Resolved (u v : CompilationUnit hash) : Prop where
  stripped_eq : v.stripped = u.stripped
  itemDeclarations_eq : v.itemDeclarations = u.itemDeclarations
  declarations_eq : v.declarations = u.declarations

theorem Resolved.refl (u : CompilationUnit hash) : u.Resolved u := ⟨rfl, rfl, rfl⟩

theorem Resolved.trans (huv : u.Resolved v) (hvw : v.Resolved w) : u.Resolved w where
  stripped_eq := hvw.stripped_eq.trans huv.stripped_eq
  itemDeclarations_eq := hvw.itemDeclarations_eq.trans huv.itemDeclarations_eq
  declarations_eq := hvw.declarations_eq.trans huv.declarations_eq

theorem resolved_record (hok : u.record .referent id decl = .ok v) : u.Resolved v := by
  obtain ⟨-, -, rfl⟩ := record_eq_ok_iff.mp hok
  refine ⟨?_, rfl, rfl⟩
  have hfindings := map_modify_of_absorb (f := fun found => found.put .referent decl)
    (g := Findings.stripped) u.findings id.index fun _ => rfl
  simp only [stripped, modifyFindings, hfindings]

theorem resolveName_resolved (hok : u.resolveName table id = .ok (answer, v)) : u.Resolved v := by
  unfold resolveName at hok
  obtain ⟨-, hok⟩ := checkIndex_bind_eq_ok_iff.mp hok
  dsimp only at hok
  split at hok
  · split at hok
    · cases hok
      exact .refl u
    · obtain ⟨w, hrecord, hok⟩ := Except.bind_eq_ok_iff.mp hok
      cases hok
      exact resolved_record hrecord
  · cases hok
    exact .refl u

theorem resolveParts_resolved (hok : u.resolveParts table function = .ok (answer, v)) :
    u.Resolved v := by
  unfold resolveParts at hok
  split at hok
  · cases hok
  · rename_i hfirst
    cases hok
    exact resolveName_resolved hfirst
  · rename_i hfirst
    exact (resolveName_resolved hfirst).trans (resolveName_resolved hok)

theorem resolve_resolved {resolution : Resolution hash}
    (hok : u.resolve item table = .ok resolution) :
    u.Resolved resolution.unit := by
  obtain ⟨-, decl, inside, -, -, hparts, -⟩ := resolve_eq_ok_iff.mp hok
  exact resolveParts_resolved hparts

/-- Binding adds a declaration, and leaves what a unit is when it is stripped of bindings. -/
theorem bind_stripped (hok : u.bind item prelude = .ok (answer, v)) :
    v.stripped = u.stripped ∧ v.declarations.size = u.declarations.size + 1 := by
  obtain ⟨declared, table, resolution, hdeclare, -, hresolve, -, rfl⟩ := bind_eq_ok_iff.mp hok
  obtain ⟨-, rfl⟩ := declareItem_eq_ok_iff.mp hdeclare
  have hresolved := resolve_resolved hresolve
  exact ⟨hresolved.stripped_eq, by rw [hresolved.declarations_eq, Array.size_push]⟩

theorem bind_findingsOf (hok : u.bind item prelude = .ok (answer, v)) (id : ExprId) :
    (v.findingsOf id).stripped = (u.findingsOf id).stripped := by
  rw [← findingsOf_stripped, ← findingsOf_stripped, (bind_stripped hok).1]

/-! ## Binding after questions -/

theorem Queried.modifyReferent (h : u.Queried w) (hu : id.index < u.findings.size)
    (hw : id.index < w.findings.size) (decl : DeclId) :
    (u.modifyFindings id fun found => found.put .referent decl).Queried
      (w.modifyFindings id fun found => found.put .referent decl) where
  names := h.names
  sources := h.sources
  items := h.items
  exprs := h.exprs
  types := h.types
  declarations := h.declarations
  itemDeclaration := h.itemDeclaration
  findings other := by
    rw [findingsOf_modifyFindings hu, findingsOf_modifyFindings hw]
    split
    · exact ⟨fun _ href => href, (h.findings id).constantForm, (h.findings id).type,
        (h.findings id).denotedType⟩
    · exact h.findings other
  names_eq := h.names_eq
  sources_eq := h.sources_eq
  items_eq := h.items_eq
  itemDeclarations_eq := h.itemDeclarations_eq
  declarations_eq := h.declarations_eq
  referent_eq other := by
    rw [findingsOf_modifyFindings hu, findingsOf_modifyFindings hw]
    split
    · rfl
    · exact h.referent_eq other

theorem Queried.resolveName (h : u.Queried w) (hu : u.Sound constants) (hw : w.Sound more)
    (hid : id.index < u.exprs.size) (hok : u.resolveName table id = .ok (answer, v)) :
    ∃ x, w.resolveName table id = .ok (answer, x) ∧ v.Queried x := by
  have hleaf := innermost_lt hu hid
  have hexpr : w.expr (u.innermost id) = u.expr (u.innermost id) :=
    (h.toGrown.holds (holds_expr hleaf)).expr_eq
  unfold CompilationUnit.resolveName at hok ⊢
  rw [checkIndex_bind_of_lt hid] at hok
  rw [checkIndex_bind_of_lt (Nat.lt_of_lt_of_le hid h.exprs.size_le),
    h.toGrown.innermost_eq hu hw hid]
  dsimp only at hok ⊢
  rw [hexpr]
  split at hok
  · split at hok
    · cases hok
      exact ⟨w, rfl, h⟩
    · rename_i decl _
      obtain ⟨bound, hrecord, hok⟩ := Except.bind_eq_ok_iff.mp hok
      cases hok
      obtain ⟨hplace, hnone, rfl⟩ := record_eq_ok_iff.mp hrecord
      have hplace' : (u.innermost id).index < w.findings.size :=
        hw.findings_size ▸ Nat.lt_of_lt_of_le hleaf h.exprs.size_le
      refine ⟨_, ?_, h.modifyReferent hplace hplace' decl⟩
      have hunset : (w.findingsOf (u.innermost id)).get .referent = none :=
        (h.referent_eq _).trans hnone
      exact Except.bind_eq_ok_iff.mpr ⟨_, record_eq_ok_iff.mpr ⟨hplace', hunset, rfl⟩, rfl⟩
  · cases hok
    exact ⟨w, rfl, h⟩

theorem Queried.resolveParts (h : u.Queried w) (hu : u.Sound constants) (hw : w.Sound more)
    (hsignature : function.signature.index < u.exprs.size)
    (hbody : function.body.index < u.exprs.size)
    (hok : u.resolveParts table function = .ok (answer, v)) :
    ∃ x, w.resolveParts table function = .ok (answer, x) ∧ v.Queried x := by
  have hsignature' := Nat.lt_of_lt_of_le hsignature h.exprs.size_le
  unfold CompilationUnit.resolveParts at hok ⊢
  split at hok
  · cases hok
  · rename_i hfirst
    cases hok
    obtain ⟨x, hx, hqueried⟩ := h.resolveName hu hw hsignature hfirst
    exact ⟨x, by rw [hx], hqueried⟩
  · rename_i bound hfirst
    obtain ⟨x, hx, hqueried⟩ := h.resolveName hu hw hsignature hfirst
    obtain ⟨hsound, hgrown, -⟩ := resolveName_spec hu hsignature hfirst
    obtain ⟨hsound', -⟩ := resolveName_spec hw hsignature' hx
    obtain ⟨y, hy, hqueried'⟩ := hqueried.resolveName hsound hsound'
      (Nat.lt_of_lt_of_le hbody hgrown.exprs.size_le) hok
    exact ⟨y, by rw [hx]; exact hy, hqueried'⟩

theorem Queried.resolve (h : u.Queried w) (hu : u.Sound constants) (hw : w.Sound more)
    (hitem : u.HoldsItem item function) {resolution : Resolution hash}
    (hok : u.resolve item table = .ok resolution) :
    ∃ x, w.resolve item table = .ok { resolution with unit := x } ∧ resolution.unit.Queried x := by
  obtain ⟨hsignature, hbody⟩ := hu.items item function hitem
  obtain ⟨-, decl, inside, hdecl, hinside, hparts, hpop⟩ := resolve_eq_ok_iff.mp hok
  rw [hitem.item_eq] at hinside hparts
  obtain ⟨x, hx, hqueried⟩ := h.resolveParts hu hw hsignature hbody hparts
  refine ⟨x, resolve_eq_ok_iff.mpr
    ⟨(h.holdsItem hitem).lt, decl, inside, ?_, ?_, ?_, hpop⟩, hqueried⟩
  · rw [itemDeclaration?, h.itemDeclarations_eq]
    exact hdecl
  · rw [(h.holdsItem hitem).item_eq, hinside]
  · rw [(h.holdsItem hitem).item_eq, hx]

theorem Queried.declareItem (h : u.Queried w) (hok : u.declareItem item = .ok v) :
    ∃ x, w.declareItem item = .ok x ∧ v.Queried x := by
  obtain ⟨hdeclarable, rfl⟩ := declareItem_eq_ok_iff.mp hok
  have hitem : w.item item = u.item item := by
    rw [CompilationUnit.item, h.items_eq, CompilationUnit.item]
  refine ⟨_, declareItem_eq_ok_iff.mpr ⟨⟨?_, ?_, ?_, ?_⟩, rfl⟩, ?_⟩
  · exact h.items_eq ▸ hdeclarable.item_lt
  · exact h.itemDeclarations_eq ▸ hdeclarable.place_lt
  · rw [itemDeclaration?, h.itemDeclarations_eq]
    exact hdeclarable.unset
  · rw [hitem]
    exact Nat.lt_of_lt_of_le hdeclarable.body_lt h.exprs.size_le
  · rw [hitem, h.declarations_eq, h.itemDeclarations_eq]
    exact ⟨⟨h.names, h.sources, h.items, h.exprs, h.types, .refl _, fun _ _ hdecl => hdecl,
      h.findings⟩, h.names_eq, h.sources_eq, h.items_eq, rfl, rfl, h.referent_eq⟩

/-- To bind an item after questions adds the same as to bind it before them. -/
theorem Queried.bind (h : u.Queried w) (hu : u.Sound constants) (hw : w.Sound more)
    (hitem : u.HoldsItem item function) (hok : u.bind item prelude = .ok (answer, v)) :
    ∃ x, w.bind item prelude = .ok (answer, x) ∧ v.Queried x := by
  obtain ⟨declared, table, resolution, hdeclare, htable, hresolve, rfl, rfl⟩ :=
    bind_eq_ok_iff.mp hok
  obtain ⟨x, hx, hqueried⟩ := h.declareItem hdeclare
  obtain ⟨hsound, hgrown, -⟩ := declareItem_spec hu hdeclare
  obtain ⟨hsound', -⟩ := declareItem_spec hw hx
  obtain ⟨y, hy, hqueried'⟩ := hqueried.resolve hsound hsound' (hgrown.holdsItem hitem) hresolve
  exact ⟨y, bind_eq_ok_iff.mpr ⟨x, table, _, hx, htable, hy, rfl, rfl⟩, hqueried'⟩

theorem findings_eq_of_stripped {x y : CompilationUnit hash}
    (h : x.findings.map Findings.stripped = y.findings.map Findings.stripped)
    (hreferent : ∀ id, (x.findingsOf id).referent = (y.findingsOf id).referent) :
    x.findings = y.findings := by
  apply Array.ext_getElem?
  intro i
  have hslot := congrArg (fun findings => findings[i]?) h
  have href := hreferent ⟨i⟩
  simp only [Array.getElem?_map] at hslot
  simp only [findingsOf, Array.getD_eq_getD_getElem?] at href
  cases hx : x.findings[i]? with
  | none =>
      rw [hx] at hslot
      exact (Option.map_eq_none_iff.mp hslot.symm).symm
  | some found =>
      cases hy : y.findings[i]? with
      | none =>
          rw [hx, hy] at hslot
          cases hslot
      | some found' =>
          rw [hx, hy] at hslot href
          exact congrArg some (Findings.eq_of_stripped (Option.some.inj hslot) href)

/-- After questions in one unit, two units are one if they are when stripped of bindings. -/
theorem Queried.eq_of_stripped {x y : CompilationUnit hash} (hx : v.Queried x) (hy : v.Queried y)
    (h : x.stripped = y.stripped) : x = y := by
  have hfindings := findings_eq_of_stripped (congrArg findings h) fun id =>
    (hx.referent_eq id).trans (hy.referent_eq id).symm
  have hexprs : x.exprs = y.exprs := (congrArg exprs h :)
  have htypes : x.types = y.types := (congrArg types h :)
  have hnames := hx.names_eq.trans hy.names_eq.symm
  have hsources := hx.sources_eq.trans hy.sources_eq.symm
  have hitems := hx.items_eq.trans hy.items_eq.symm
  have hitemDeclarations := hx.itemDeclarations_eq.trans hy.itemDeclarations_eq.symm
  have hdeclarations := hx.declarations_eq.trans hy.declarations_eq.symm
  cases x
  cases y
  simp only at hfindings hexprs htypes hnames hsources hitems hitemDeclarations hdeclarations
  subst hfindings hexprs htypes hnames hsources hitems hitemDeclarations hdeclarations
  rfl

end CompilationUnit

end FrontEnd
