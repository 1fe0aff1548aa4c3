import FrontEnd.Binding
import FrontEnd.Proofs.CompilationUnit.Trails
import FrontEnd.Proofs.Except
import FrontEnd.Proofs.Typing.Preludes

/-! # What binding records

A bound item has a declaration, and every name in it refers to this declaration if it is the name
of the item, and otherwise to that of the prelude. -/

namespace FrontEnd

variable {hash : Hasher}

namespace Bindings

/-- The table of the standard prelude has its only name. -/
theorem ofPrelude_eq (hash : Hasher) {prelude : Prelude} {entry : PreludeName}
    (hentries : prelude.entries = [entry]) :
    ∃ table : Bindings hash, ofPrelude prelude = .ok table ∧ table.WellFormed ∧
      ∀ name, table.lookup name = if name = entry.name then some entry.binding else none := by
  have hempty : (.empty : Bindings hash).WellFormed := Scopes.empty_wellFormed
  obtain ⟨table, hinsert, htable, -, -, hlookup⟩ := hempty.push_insert entry.name entry.binding
  refine ⟨table, ?_, htable, fun name => ?_⟩
  · simp only [ofPrelude, hentries, declareAll, hinsert]
  · rw [hlookup name, Scopes.lookup_empty]

end Bindings

namespace CompilationUnit

variable {constants : Constants} {u v : CompilationUnit hash}

/-- An expression of an item lies in the chain of its signature or in that of its body. -/
def PartOf (u : CompilationUnit hash) (function : FunctionItem) (id : ExprId) : Prop :=
  ∃ top outer, (top = function.signature ∨ top = function.body) ∧ Trail u.child? id outer top

theorem Grown.trail (hgrown : u.Grown v) {leaf top : ExprId} {outer : List ExprId}
    (h : Trail u.child? leaf outer top) : Trail v.child? leaf outer top := by
  refine h.congr fun id _ inner hinner => ?_
  obtain ⟨expr, pos, hid, hexpr⟩ := exists_holds_of_child? hinner
  exact (child?_of_holds (hgrown.holds hid)).trans hexpr

/-- What an expression was made around stays. -/
theorem Grown.trail_iff (hgrown : u.Grown v) (h : LeadsDown v.child?) {leaf top : ExprId}
    {outer : List ExprId} (htop : top.index < u.exprs.size) :
    Trail v.child? leaf outer top ↔ Trail u.child? leaf outer top := by
  refine ⟨fun htrail => htrail.congr fun id hid inner hinner => ?_, hgrown.trail⟩
  obtain ⟨expr, pos, hholds, hexpr⟩ := exists_holds_of_child? hinner
  have hlt := Nat.lt_of_le_of_lt (htrail.index_of_mem h hid).2 htop
  exact (child?_of_holds ((hgrown.holds_iff hlt).mp hholds)).trans hexpr

theorem Grown.partOf_iff (hgrown : u.Grown v) (h : LeadsDown v.child?) {function : FunctionItem}
    (hsignature : function.signature.index < u.exprs.size)
    (hbody : function.body.index < u.exprs.size) {id : ExprId} :
    v.PartOf function id ↔ u.PartOf function id := by
  constructor
  · rintro ⟨top, outer, rfl | rfl, htrail⟩
    · exact ⟨_, outer, .inl rfl, (hgrown.trail_iff h hsignature).mp htrail⟩
    · exact ⟨_, outer, .inr rfl, (hgrown.trail_iff h hbody).mp htrail⟩
  · rintro ⟨top, outer, htop, htrail⟩
    exact ⟨top, outer, htop, hgrown.trail htrail⟩

theorem PartOf.lt (h : u.Sound constants) {function : FunctionItem}
    (hsignature : function.signature.index < u.exprs.size)
    (hbody : function.body.index < u.exprs.size) {id : ExprId} (hid : u.PartOf function id) :
    id.index < u.exprs.size := by
  obtain ⟨top, outer, rfl | rfl, htrail⟩ := hid
  · exact Nat.lt_of_le_of_lt (htrail.index_le h.exprsDescend) hsignature
  · exact Nat.lt_of_le_of_lt (htrail.index_le h.exprsDescend) hbody

/-! ## Names -/

theorem innermost_trail (h : u.Sound constants) (id : ExprId) :
    ∃ outer, Trail u.child? (u.innermost id) outer id :=
  ⟨_, (ExprId.descend_spec h.exprsDescend (.stay id)).1⟩

theorem innermost_lt (h : u.Sound constants) {id : ExprId} (hid : id.index < u.exprs.size) :
    (u.innermost id).index < u.exprs.size := by
  obtain ⟨outer, htrail⟩ := innermost_trail h id
  exact Nat.lt_of_le_of_lt (htrail.index_le h.exprsDescend) hid

theorem innermost_of_trail (h : u.Sound constants) {leaf top : ExprId} {outer : List ExprId}
    (htrail : Trail u.child? leaf outer top) (hnone : u.child? leaf = none) :
    u.innermost top = leaf := by
  rw [innermost, ExprId.descend_of_trail h.exprsDescend htrail, ExprId.descend_of_none hnone]

theorem Grown.innermost_eq {more : Constants} (hgrown : u.Grown v) (h : u.Sound constants)
    (hafter : v.Sound more) {id : ExprId} (hid : id.index < u.exprs.size) :
    v.innermost id = u.innermost id := by
  obtain ⟨htrail, hnone⟩ := ExprId.descend_spec h.exprsDescend (.stay id)
  exact innermost_of_trail hafter (hgrown.trail htrail)
    ((hgrown.child?_eq (innermost_lt h hid)).trans hnone)

/-- Resolving records what the name inside an expression refers to. -/
theorem resolveName_spec (h : u.Sound constants) {table : Bindings hash} {id : ExprId}
    (hid : id.index < u.exprs.size) {answer : Except BindingError Unit}
    (hok : u.resolveName table id = .ok (answer, v)) :
    v.Sound constants ∧ u.Grown v ∧ (answer = .ok () →
      ∀ leaf outer name pos, Trail u.child? leaf outer id → u.Holds leaf (.name name) pos →
        ∃ decl, table.lookup name = some decl ∧ (v.findingsOf leaf).referent = some decl) := by
  have hleaf := innermost_lt h hid
  have hreached : ∀ {leaf outer name pos}, Trail u.child? leaf outer id →
      u.Holds leaf (.name name) pos → u.innermost id = leaf :=
    fun htrail hholds => innermost_of_trail h htrail (child?_of_holds hholds)
  rw [resolveName, checkIndex_bind_of_lt hid] at hok
  dsimp only at hok
  split at hok
  · rename_i name pos hexpr
    split at hok
    · cases hok
      exact ⟨h, .refl u, by rintro ⟨⟩⟩
    · rename_i decl hdecl
      obtain ⟨w, hrecord, hok⟩ := Except.bind_eq_ok_iff.mp hok
      cases hok
      have hrecorded : u.Recorded v (u.innermost id) fun found =>
        { found with referent := some decl } := recorded_record hrecord
      refine ⟨h.recordReferent hrecord, hrecorded.toGrown, ?_⟩
      intro _ leaf outer name' pos' htrail hholds
      obtain rfl := hreached htrail hholds
      rw [hholds.expr_eq] at hexpr
      cases hexpr
      exact ⟨decl, hdecl, by rw [hrecorded.findingsOf_eq, if_pos rfl]⟩
  · rename_i hnot
    cases hok
    refine ⟨h, .refl u, fun _ leaf outer name pos htrail hholds => ?_⟩
    obtain rfl := hreached htrail hholds
    exact absurd hholds.expr_eq (hnot name pos)

/-- If the names in an item are resolved, each refers to what a table has for it. -/
theorem resolveParts_spec (h : u.Sound constants) {table : Bindings hash} {function : FunctionItem}
    (hsignature : function.signature.index < u.exprs.size)
    (hbody : function.body.index < u.exprs.size) {answer : Except BindingError Unit}
    (hok : u.resolveParts table function = .ok (answer, v)) :
    v.Sound constants ∧ u.Grown v ∧ (answer = .ok () →
      ∀ id name pos, u.PartOf function id → u.Holds id (.name name) pos →
        ∃ decl, table.lookup name = some decl ∧ (v.findingsOf id).referent = some decl) := by
  unfold resolveParts at hok
  split at hok
  · cases hok
  · rename_i e w hfirst
    cases hok
    obtain ⟨hsound, hgrown, -⟩ := resolveName_spec h hsignature hfirst
    exact ⟨hsound, hgrown, by rintro ⟨⟩⟩
  · rename_i w hfirst
    obtain ⟨hsound₁, hgrown₁, hnames₁⟩ := resolveName_spec h hsignature hfirst
    obtain ⟨hsound₂, hgrown₂, hnames₂⟩ :=
      resolveName_spec hsound₁ (Nat.lt_of_lt_of_le hbody hgrown₁.exprs.size_le) hok
    refine ⟨hsound₂, hgrown₁.trans hgrown₂, ?_⟩
    rintro hanswer id name pos ⟨top, outer, rfl | rfl, htrail⟩ hholds
    · obtain ⟨decl, hdecl, hreferent⟩ := hnames₁ rfl id outer name pos htrail hholds
      exact ⟨decl, hdecl, (hgrown₂.findings id).referent decl hreferent⟩
    · exact hnames₂ hanswer id outer name pos (hgrown₁.trail htrail) (hgrown₁.holds hholds)

/-! ## Items -/

variable {item : ItemId} {table : Bindings hash} {prelude : Prelude}
  {answer : Except BindingError Unit}

/-- An item without a declaration that has a place for one, and with a body that is there. -/
structure Declarable (u : CompilationUnit hash) (item : ItemId) : Prop where
  item_lt : item.index < u.items.size
  place_lt : item.index < u.itemDeclarations.size
  unset : u.itemDeclaration? item = none
  body_lt : (u.item item).body.index < u.exprs.size

theorem Sound.declarable (h : u.Sound constants) {function : FunctionItem}
    (hitem : u.HoldsItem item function) (hplace : item.index < u.itemDeclarations.size)
    (hunset : u.itemDeclaration? item = none) : u.Declarable item :=
  ⟨hitem.lt, hplace, hunset, hitem.item_eq ▸ (h.items item function hitem).2⟩

theorem declareItem_eq_ok_iff : u.declareItem item = .ok v ↔ u.Declarable item ∧
    v = { u with
      declarations := u.declarations.push ⟨(u.item item).name, .function item⟩
      itemDeclarations :=
        u.itemDeclarations.setIfInBounds item.index (some ⟨u.declarations.size⟩) } := by
  unfold declareItem
  rw [checkIndex_bind_eq_ok_iff]
  split
  · rename_i hsome
    refine iff_of_false (fun hok => by cases hok.2) fun hok => ?_
    cases hsome.symm.trans hok.1.unset
  · constructor
    · rintro ⟨hitem, hok⟩
      obtain ⟨w, hrecord, hok⟩ := Except.bind_eq_ok_iff.mp hok
      obtain ⟨hplace, hunset, rfl⟩ := recordItemDeclaration_eq_ok_iff.mp hrecord
      obtain ⟨hbody, hok⟩ := checkIndex_bind_eq_ok_iff.mp hok
      cases hok
      exact ⟨⟨hitem, hplace, hunset, hbody⟩, rfl⟩
    · rintro ⟨⟨hitem, hplace, hunset, hbody⟩, rfl⟩
      refine ⟨hitem, Except.bind_eq_ok_iff.mpr
        ⟨_, recordItemDeclaration_eq_ok_iff.mpr ⟨hplace, hunset, rfl⟩, ?_⟩⟩
      exact checkIndex_bind_eq_ok_iff.mpr ⟨hbody, rfl⟩

/-- What a declared item is resolved to, in the table with its name. -/
theorem resolve_eq_ok_iff {resolution : Resolution hash} :
    u.resolve item table = .ok resolution ↔ item.index < u.items.size ∧ ∃ decl inside,
      u.itemDeclaration? item = some decl ∧
      table.push.insert (u.item item).name decl = .ok inside ∧
      u.resolveParts inside (u.item item) = .ok (resolution.answer, resolution.unit) ∧
      inside.pop = .ok resolution.table := by
  obtain ⟨answer, v, outside⟩ := resolution
  rw [resolve, checkIndex_bind_eq_ok_iff]
  cases u.itemDeclaration? item with
  | none => simp [throw, throwThe, MonadExceptOf.throw]
  | some decl => simp [Except.bind_eq_ok_iff, pure, Except.pure]

theorem bind_eq_ok_iff : u.bind item prelude = .ok (answer, v) ↔ ∃ declared table resolution,
    u.declareItem item = .ok declared ∧ Bindings.ofPrelude prelude = .ok table ∧
    declared.resolve item table = .ok resolution ∧ resolution.answer = answer ∧
    resolution.unit = v := by
  simp [CompilationUnit.bind, Except.bind_eq_ok_iff, pure, Except.pure]

/-- The declaration that is recorded is the one that was added for it. -/
theorem recordItemDeclaration_of_declareItem (hok : u.declareItem item = .ok v) :
    (u.addDeclaration ⟨(u.item item).name, .function item⟩).2.recordItemDeclaration item
      ⟨u.declarations.size⟩ = .ok v := by
  obtain ⟨hdeclarable, hv⟩ := declareItem_eq_ok_iff.mp hok
  exact recordItemDeclaration_eq_ok_iff.mpr ⟨hdeclarable.place_lt, hdeclarable.unset, hv⟩

theorem grown_declareItem (hok : u.declareItem item = .ok v) : u.Grown v :=
  (grown_addDeclaration u _).trans
    (grown_recordItemDeclaration (recordItemDeclaration_of_declareItem hok))

/-- An item gets at most one declaration, and that is one of itself. -/
theorem declareItem_spec (h : u.Sound constants) (hok : u.declareItem item = .ok v) :
    v.Sound constants ∧ u.Grown v ∧ ∀ decl, v.itemDeclaration? item = some decl →
      v.HoldsDecl decl ⟨(u.item item).name, .function item⟩ := by
  obtain ⟨-, hv⟩ := declareItem_eq_ok_iff.mp hok
  have hdecl := holdsDecl_addDeclaration u ⟨(u.item item).name, .function item⟩
  have hrecord := recordItemDeclaration_of_declareItem hok
  have hgrown := grown_recordItemDeclaration hrecord
  refine ⟨(h.addDeclaration _).recordItemDeclaration hrecord, grown_declareItem hok, ?_⟩
  intro decl hfound
  rw [hv, itemDeclaration?, Array.getD_eq_getD_getElem?, Array.getElem?_setIfInBounds_self]
    at hfound
  split at hfound
  · cases hfound
    exact hgrown.holdsDecl hdecl
  · cases hfound

/-- A declared item sees its own name before those of the table around it. -/
theorem resolve_spec (h : u.Sound constants) {function : FunctionItem}
    (hitem : u.HoldsItem item function) {resolution : Resolution hash}
    (hok : u.resolve item table = .ok resolution) :
    resolution.unit.Sound constants ∧ u.Grown resolution.unit ∧
      ∃ decl inside, u.itemDeclaration? item = some decl ∧
        table.push.insert function.name decl = .ok inside ∧ (resolution.answer = .ok () →
          ∀ id name pos, u.PartOf function id → u.Holds id (.name name) pos →
            ∃ found, inside.lookup name = some found ∧
              (resolution.unit.findingsOf id).referent = some found) := by
  obtain ⟨hsignature, hbody⟩ := h.items item function hitem
  obtain ⟨-, decl, inside, hdecl, hinside, hparts, -⟩ := resolve_eq_ok_iff.mp hok
  rw [hitem.item_eq] at hinside hparts
  obtain ⟨hsound, hgrown, hnames⟩ := resolveParts_spec h hsignature hbody hparts
  exact ⟨hsound, hgrown, decl, inside, hdecl, hinside, hnames⟩

/-- To bind an item is to declare it and to resolve its names against a prelude. -/
theorem bind_spec (h : u.Sound constants) {function : FunctionItem}
    (hitem : u.HoldsItem item function) (hok : u.bind item prelude = .ok (answer, v)) :
    v.Sound constants ∧ u.Grown v ∧ ∃ (table : Bindings hash) (decl : DeclId)
      (inside : Bindings hash), Bindings.ofPrelude prelude = .ok table ∧
      v.itemDeclaration? item = some decl ∧
      v.HoldsDecl decl ⟨function.name, .function item⟩ ∧
      table.push.insert function.name decl = .ok inside ∧ (answer = .ok () →
        ∀ id name pos, u.PartOf function id → u.Holds id (.name name) pos →
          ∃ found, inside.lookup name = some found ∧
            (v.findingsOf id).referent = some found) := by
  obtain ⟨declared, table, resolution, hdeclare, htable, hresolve, rfl, rfl⟩ :=
    bind_eq_ok_iff.mp hok
  obtain ⟨hsound₁, hgrown₁, hdecl₁⟩ := declareItem_spec h hdeclare
  obtain ⟨hsound₂, hgrown₂, decl, inside, hdecl, hinside, hnames⟩ :=
    resolve_spec hsound₁ (hgrown₁.holdsItem hitem) hresolve
  have hholds := hdecl₁ decl hdecl
  rw [hitem.item_eq] at hholds
  refine ⟨hsound₂, hgrown₁.trans hgrown₂, table, decl, inside, htable,
    hgrown₂.itemDeclaration _ _ hdecl, hgrown₂.holdsDecl hholds, hinside, ?_⟩
  rintro hanswer id name pos ⟨top, outer, htop, htrail⟩ hid
  exact hnames hanswer id name pos ⟨top, outer, htop, hgrown₁.trail htrail⟩ (hgrown₁.holds hid)

/-- Every name in an item that is bound refers to the declaration of this item if it is the name
of the item, and is otherwise the one of the prelude and refers to the binding of that. -/
theorem bind_referent (h : u.Sound constants) {function : FunctionItem}
    (hitem : u.HoldsItem item function) {entry : PreludeName}
    (hentries : prelude.entries = [entry]) (hok : u.bind item prelude = .ok (.ok (), v)) :
    ∃ decl, v.itemDeclaration? item = some decl ∧
      v.HoldsDecl decl ⟨function.name, .function item⟩ ∧
      ∀ id name pos, u.PartOf function id → u.Holds id (.name name) pos →
        (name = function.name ∨ name = entry.name) ∧ (v.findingsOf id).referent =
          some (if name = function.name then decl else entry.binding) := by
  obtain ⟨-, -, table, decl, inside, htable, hdecl, hholds, hinside, hnames⟩ :=
    bind_spec h hitem hok
  obtain ⟨table', htable', hwellFormed, hlookup⟩ := Bindings.ofPrelude_eq hash hentries
  rw [htable'] at htable
  obtain rfl := Except.ok.inj htable
  obtain ⟨inside', hinside', -, -, -, hlookupInside⟩ := hwellFormed.push_insert function.name decl
  rw [hinside'] at hinside
  obtain rfl := Except.ok.inj hinside
  refine ⟨decl, hdecl, hholds, fun id name pos hpart hid => ?_⟩
  obtain ⟨found, hfound, hreferent⟩ := hnames rfl id name pos hpart hid
  rw [hlookupInside, hlookup] at hfound
  by_cases hself : name = function.name
  · rw [if_pos hself] at hfound ⊢
    exact ⟨.inl hself, hreferent.trans hfound.symm⟩
  · rw [if_neg hself] at hfound ⊢
    by_cases hentry : name = entry.name
    · rw [if_pos hentry] at hfound
      exact ⟨.inr hentry, hreferent.trans hfound.symm⟩
    · rw [if_neg hentry] at hfound
      cases hfound

end CompilationUnit

end FrontEnd
