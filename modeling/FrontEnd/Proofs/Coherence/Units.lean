import FrontEnd.Proofs.CompilationUnit.Listing
import FrontEnd.Proofs.SessionItems

/-! # Coherent units

All that a unit refers to is there, nodes refer to older nodes, and everything that is kept beside
the nodes has a place for each of them. -/

namespace FrontEnd.CompilationUnit

variable {hash : Hasher} {u v w : CompilationUnit hash}

/-! ## What is referred to -/

/-- All that an item refers to is there. -/
structure ItemFits (u : CompilationUnit hash) (item : FunctionItem) : Prop where
  name : u.Knows item.name
  signature : item.signature.index < u.exprs.size
  body : item.body.index < u.exprs.size

/-- All that was found about an expression is there. -/
structure FindingsFit (u : CompilationUnit hash) (found : Findings) : Prop where
  referent : ∀ decl, found.referent = some decl → decl.index < u.declarations.size
  constantForm : ∀ form, found.constantForm = some (some form) → form.index < u.exprs.size
  type : ∀ type, found.type = some type → type.index < u.types.size
  denotedType : ∀ type, found.denotedType = some (some type) → type.index < u.types.size

/-- An expression that is answered, if there is one, is there. -/
def HasForm (u : CompilationUnit hash) (form : Option ExprId) : Prop :=
  ∀ made, form = some made → made.index < u.exprs.size

def HasType (u : CompilationUnit hash) (type : TypeId) : Prop := type.index < u.types.size

instance (u : CompilationUnit hash) (type : TypeId) : Decidable (u.HasType type) :=
  inferInstanceAs (Decidable (_ < _))

/-- What a slot is filled with is there. -/
def HasValue (u : CompilationUnit hash) : (slot : Slot) → slot.Value → Prop
  | .referent, decl => decl.index < u.declarations.size
  | .constantForm, form => u.HasForm form
  | .type, type => u.HasType type
  | .denotedType, type => ∀ made, type = some made → u.HasType made

theorem FindingsFit.put {found : Findings} (h : u.FindingsFit found) {slot : Slot}
    {value : slot.Value} (hvalue : u.HasValue slot value) :
    u.FindingsFit (found.put slot value) := by
  cases slot with
  | referent => exact { h with referent := by rintro decl ⟨⟩; exact hvalue }
  | constantForm =>
      exact { h with constantForm := fun form hform => hvalue form (Option.some.inj hform) }
  | type => exact { h with type := by rintro type ⟨⟩; exact hvalue }
  | denotedType =>
      exact { h with denotedType := fun type htype => hvalue type (Option.some.inj htype) }

theorem ItemFits.grow (hgrown : u.Grown v) {item : FunctionItem} (h : u.ItemFits item) :
    v.ItemFits item where
  name := h.name.grow hgrown
  signature := Nat.lt_of_lt_of_le h.signature hgrown.exprs.size_le
  body := Nat.lt_of_lt_of_le h.body hgrown.exprs.size_le

theorem ExprFits.grow (hgrown : u.Grown v) {expr : Expr} (h : u.ExprFits expr) :
    v.ExprFits expr where
  name name hname := (h.name name hname).grow hgrown
  child child hchild := Nat.lt_of_lt_of_le (h.child child hchild) hgrown.exprs.size_le

theorem DeclFits.grow (hgrown : u.Grown v) {decl : Declaration} (h : u.DeclFits decl) :
    v.DeclFits decl where
  name := h.name.grow hgrown
  constant value type hmeaning := by
    obtain ⟨hvalue, htype⟩ := h.constant value type hmeaning
    exact ⟨Nat.lt_of_lt_of_le hvalue hgrown.exprs.size_le,
      Nat.lt_of_lt_of_le htype hgrown.types.size_le⟩
  function item hmeaning := Nat.lt_of_lt_of_le (h.function item hmeaning) hgrown.items.size_le

theorem HasForm.grow (hgrown : u.Grown v) {form : Option ExprId} (h : u.HasForm form) :
    v.HasForm form :=
  fun made hmade => Nat.lt_of_lt_of_le (h made hmade) hgrown.exprs.size_le

theorem HasType.grow (hgrown : u.Grown v) {type : TypeId} (h : u.HasType type) : v.HasType type :=
  Nat.lt_of_lt_of_le h hgrown.types.size_le

theorem FindingsFit.grow (hgrown : u.Grown v) {found : Findings} (h : u.FindingsFit found) :
    v.FindingsFit found where
  referent decl hdecl := Nat.lt_of_lt_of_le (h.referent decl hdecl) hgrown.declarations.size_le
  constantForm form hform := Nat.lt_of_lt_of_le (h.constantForm form hform) hgrown.exprs.size_le
  type type htype := Nat.lt_of_lt_of_le (h.type type htype) hgrown.types.size_le
  denotedType type htype := Nat.lt_of_lt_of_le (h.denotedType type htype) hgrown.types.size_le

/-! ## Coherence -/

structure Coherent (u : CompilationUnit hash) : Prop where
  names : u.names.WellFormed
  /-- The base types stand at the places that they have from the start. -/
  baseTypes : ∀ kind : BaseType, u.HoldsType kind.typeId (.base kind)
  baseExprs : ∀ kind : BaseType, u.Holds kind.exprId (.baseType kind) .nowhere
  typesDescend : u.TypesDescend
  exprsDescend : LeadsDown u.child?
  findings_size : u.findings.size = u.exprs.size
  hasPlaces : u.HasPlaces
  sourcesFit : ∀ (i : Nat) source, u.sources[i]? = some source → u.Knows source.path
  itemsFit : ∀ id item, u.HoldsItem id item → u.ItemFits item
  exprsFit : ∀ id expr pos, u.Holds id expr pos → u.ExprFits expr
  typesFit : ∀ id result, u.HoldsType id (.function result) → result.index < u.types.size
  declarationsFit : ∀ id decl, u.HoldsDecl id decl → u.DeclFits decl
  itemDeclarationsFit : ∀ id decl, u.itemDeclaration? id = some decl →
    decl.index < u.declarations.size
  findingsFit : ∀ id, u.FindingsFit (u.findingsOf id)

theorem new_coherent : (new hash).Coherent where
  names := new_sound.names
  baseTypes := new_sound.baseTypes
  baseExprs := new_sound.baseExprs
  typesDescend := new_sound.typesDescend
  exprsDescend := new_sound.exprsDescend
  findings_size := rfl
  hasPlaces := rfl
  sourcesFit _ _ h := by cases h
  itemsFit _ _ h := by cases h
  exprsFit id expr pos h := by
    refine ⟨fun name hname => ?_, fun child hchild => ?_⟩
    · obtain ⟨index⟩ := id
      match index with
      | 0 | 1 | 2 | 3 => cases h; cases hname
      | _ + 4 => cases h
    · have hlt := new_sound.exprsDescend id child ((child?_of_holds h).trans hchild)
      exact Nat.lt_trans hlt h.lt
  typesFit id result h := Nat.lt_trans (new_sound.typesDescend id result h) h.lt
  declarationsFit _ _ h := by cases h
  itemDeclarationsFit _ _ h := by cases h
  findingsFit id := by
    rw [findingsOf_new]
    exact ⟨nofun, nofun, nofun, nofun⟩

/-- A unit has become a coherent one that keeps all that it held. -/
structure Advances (u v : CompilationUnit hash) : Prop where
  coherent : v.Coherent
  grown : u.Grown v

theorem Coherent.stays (h : u.Coherent) : u.Advances u := ⟨h, .refl u⟩

theorem Advances.trans (huv : u.Advances v) (hvw : v.Advances w) : u.Advances w :=
  ⟨hvw.coherent, huv.grown.trans hvw.grown⟩

theorem Advances.expr_lt (h : u.Advances v) {id : ExprId} (hid : id.index < u.exprs.size) :
    id.index < v.exprs.size :=
  Nat.lt_of_lt_of_le hid h.grown.exprs.size_le

/-! ## What is written -/

/-- One thing is written: whatever is there afterwards was there before, or fits what was. -/
structure Writes (u v : CompilationUnit hash) : Prop extends Grown u v where
  wellFormed : u.names.WellFormed → v.names.WellFormed := by
    exact fun hold => hold
  findings_size : u.findings.size = u.exprs.size → v.findings.size = v.exprs.size := by
    exact fun hold => hold
  hasPlaces : u.HasPlaces → v.HasPlaces := by
    exact fun hold => hold
  newSource : ∀ (i : Nat) source, v.sources[i]? = some source →
      u.sources[i]? = some source ∨ u.Knows source.path := by
    exact fun _ _ => .inl
  newItem : ∀ id item, v.HoldsItem id item → u.HoldsItem id item ∨ u.ItemFits item := by
    exact fun _ _ => .inl
  newExpr : ∀ id expr pos, v.Holds id expr pos →
      u.Holds id expr pos ∨ id.index = u.exprs.size ∧ u.ExprFits expr := by
    exact fun _ _ _ => .inl
  newType : ∀ id result, v.HoldsType id (.function result) →
      u.HoldsType id (.function result) ∨
        id.index = u.types.size ∧ result.index < u.types.size := by
    exact fun _ _ => .inl
  newDeclaration : ∀ id decl, v.HoldsDecl id decl → u.HoldsDecl id decl ∨ u.DeclFits decl := by
    exact fun _ _ => .inl
  newItemDeclaration : ∀ id decl, v.itemDeclaration? id = some decl →
      u.itemDeclaration? id = some decl ∨ decl.index < u.declarations.size := by
    exact fun _ _ => .inl
  newFindings : ∀ id, v.findingsOf id = u.findingsOf id ∨ u.FindingsFit (v.findingsOf id) := by
    exact fun _ => .inl rfl

/-- What fits a coherent unit leaves it coherent. -/
theorem Coherent.writes (h : u.Coherent) (hwrites : u.Writes v) : v.Coherent where
  names := hwrites.wellFormed h.names
  baseTypes kind := hwrites.toGrown.holdsType (h.baseTypes kind)
  baseExprs kind := hwrites.toGrown.holds (h.baseExprs kind)
  typesDescend id result hid := by
    rcases hwrites.newType id result hid with hold | ⟨hnew, hresult⟩
    · exact h.typesDescend id result hold
    · exact hnew ▸ hresult
  exprsDescend id inner hinner := by
    obtain ⟨expr, pos, hid, hexpr⟩ := exists_holds_of_child? hinner
    rcases hwrites.newExpr id expr pos hid with hold | ⟨hnew, hfits⟩
    · exact h.exprsDescend id inner ((child?_of_holds hold).trans hexpr)
    · exact hnew ▸ hfits.child inner hexpr
  findings_size := hwrites.findings_size h.findings_size
  hasPlaces := hwrites.hasPlaces h.hasPlaces
  sourcesFit i source hsource := by
    rcases hwrites.newSource i source hsource with hold | hfits
    · exact (h.sourcesFit i source hold).grow hwrites.toGrown
    · exact hfits.grow hwrites.toGrown
  itemsFit id item hid := by
    rcases hwrites.newItem id item hid with hold | hfits
    · exact (h.itemsFit id item hold).grow hwrites.toGrown
    · exact hfits.grow hwrites.toGrown
  exprsFit id expr pos hid := by
    rcases hwrites.newExpr id expr pos hid with hold | ⟨-, hfits⟩
    · exact (h.exprsFit id expr pos hold).grow hwrites.toGrown
    · exact hfits.grow hwrites.toGrown
  typesFit id result hid := by
    refine Nat.lt_of_lt_of_le ?_ hwrites.types.size_le
    rcases hwrites.newType id result hid with hold | ⟨-, hresult⟩
    · exact h.typesFit id result hold
    · exact hresult
  declarationsFit id decl hid := by
    rcases hwrites.newDeclaration id decl hid with hold | hfits
    · exact (h.declarationsFit id decl hold).grow hwrites.toGrown
    · exact hfits.grow hwrites.toGrown
  itemDeclarationsFit id decl hid := by
    refine Nat.lt_of_lt_of_le ?_ hwrites.declarations.size_le
    rcases hwrites.newItemDeclaration id decl hid with hold | hlt
    · exact h.itemDeclarationsFit id decl hold
    · exact hlt
  findingsFit id := by
    rcases hwrites.newFindings id with hold | hfits
    · exact (hold ▸ h.findingsFit id).grow hwrites.toGrown
    · exact hfits.grow hwrites.toGrown

theorem Coherent.advances (h : u.Coherent) (hwrites : u.Writes v) : u.Advances v :=
  ⟨h.writes hwrites, hwrites.toGrown⟩

/-! ## Names, sources and nodes -/

theorem Coherent.names_advance (h : u.Coherent) {names : Interner hash.text}
    (hnames : names.WellFormed) (hextends : u.names.Extends names) : u.Advances { u with names } :=
  h.advances {
    names := hextends
    sources := .refl _
    items := .refl _
    exprs := .refl _
    types := .refl _
    declarations := .refl _
    itemDeclaration := fun _ _ hold => hold
    findings := fun _ => .refl _
    wellFormed := fun _ => hnames }

theorem Coherent.intern (h : u.Coherent) (text : String) (hroom : u.names.size + 1 < 2 ^ 32) :
    u.Advances (u.intern text).2 ∧ (u.intern text).2.Knows (u.intern text).1 := by
  have hinterned := interned h.names text hroom
  exact ⟨h.names_advance hinterned.wellFormed hinterned.extends,
    Interner.lt_size_of_text? hinterned.text_eq⟩

theorem Coherent.pushSource (h : u.Coherent) {source : Source} (hpath : u.Knows source.path) :
    u.Advances { u with sources := u.sources.push source } :=
  h.advances {
    names := .refl _
    sources := .push _ _
    items := .refl _
    exprs := .refl _
    types := .refl _
    declarations := .refl _
    itemDeclaration := fun _ _ hold => hold
    findings := fun _ => .refl _
    newSource := fun i added hadded => by
      rw [Array.getElem?_push] at hadded
      split at hadded
      · cases hadded
        exact .inr hpath
      · exact .inl hadded }

theorem Coherent.addSource (h : u.Coherent) (path : String) (bytes : List UInt8)
    (hroom : u.names.size + 1 < 2 ^ 32) : u.Advances (u.addSource path bytes).2 := by
  obtain ⟨hadvances, hknows⟩ := h.intern (shownPath path) hroom
  exact hadvances.trans (hadvances.coherent.pushSource hknows)

theorem Coherent.addItem (h : u.Coherent) {item : FunctionItem} (hitem : u.ItemFits item) :
    u.Advances (u.addItem item).2 :=
  h.advances {
    toGrown := grown_addItem u item
    hasPlaces := fun hplaces => hplaces.addItem item
    newItem := fun id added hadded => by
      rw [HoldsItem, CompilationUnit.addItem, Array.getElem?_push] at hadded
      split at hadded
      · cases hadded
        exact .inr hitem
      · exact .inl hadded
    newItemDeclaration := fun id decl hdecl => .inl (itemDeclaration?_addItem item id ▸ hdecl) }

theorem Coherent.addExpr (h : u.Coherent) {expr : Expr} (hexpr : u.ExprFits expr)
    (pos : Position) : u.Advances (u.addExpr expr pos).2 :=
  h.advances {
    toGrown := (queried_addExpr u expr pos).toGrown
    findings_size := fun hsize => by simp [CompilationUnit.addExpr, hsize]
    newExpr := fun id added addedPos hadded => by
      rw [Holds, getElem?_addExpr] at hadded
      split at hadded
      · rename_i hnew
        cases hadded
        exact .inr ⟨hnew, hexpr⟩
      · exact .inl hadded
    newFindings := fun id => .inl (findingsOf_addExpr expr pos id) }

theorem Coherent.addFunctionType (h : u.Coherent) {result : TypeId}
    (hresult : result.index < u.types.size) : u.Advances (u.addFunctionType result).2 :=
  h.advances {
    toGrown := (queried_addFunctionType u result).toGrown
    newType := fun id added hadded => by
      rw [HoldsType, getElem?_addFunctionType] at hadded
      split at hadded
      · rename_i hnew
        cases hadded
        exact .inr ⟨hnew, hresult⟩
      · exact .inl hadded }

theorem Coherent.addDeclaration (h : u.Coherent) {decl : Declaration} (hdecl : u.DeclFits decl) :
    u.Advances (u.addDeclaration decl).2 :=
  h.advances {
    toGrown := grown_addDeclaration u decl
    newDeclaration := fun id added hadded => by
      rw [HoldsDecl, CompilationUnit.addDeclaration, Array.getElem?_push] at hadded
      split at hadded
      · cases hadded
        exact .inr hdecl
      · exact .inl hadded }

/-! ## What is recorded beside nodes -/

variable {id : ExprId}

theorem Coherent.recordItemDeclaration (h : u.Coherent) {item : ItemId} {decl : DeclId}
    (hdecl : decl.index < u.declarations.size) (hok : u.recordItemDeclaration item decl = .ok v) :
    u.Advances v := by
  have hgrown := grown_recordItemDeclaration hok
  have hplaces := h.hasPlaces.recordItemDeclaration hok
  obtain ⟨-, -, rfl⟩ := recordItemDeclaration_eq_ok_iff.mp hok
  exact h.advances {
    toGrown := hgrown
    hasPlaces := fun _ => hplaces
    newItemDeclaration := fun other found hfound => by
      rw [itemDeclaration?, Array.getD_eq_getD_getElem?, Array.getElem?_setIfInBounds] at hfound
      split at hfound
      · split at hfound <;> cases hfound
        exact .inr hdecl
      · rw [← Array.getD_eq_getD_getElem?] at hfound
        exact .inl hfound }

/-- What is recorded in a slot fits, and nothing is lost by it. -/
theorem Coherent.record (h : u.Coherent) {slot : Slot} {value : slot.Value}
    (hok : u.record slot id value = .ok v) (hvalue : u.HasValue slot value) : u.Advances v := by
  have hrecorded := recorded_record hok
  obtain ⟨-, -, rfl⟩ := record_eq_ok_iff.mp hok
  exact h.advances {
    toGrown := hrecorded.toGrown
    findings_size := fun hsize => hrecorded.findings_size.trans hsize
    newFindings := fun other => by
      rw [hrecorded.findingsOf_eq]
      split
      · exact .inr ((h.findingsFit id).put hvalue)
      · exact .inl rfl }

end FrontEnd.CompilationUnit
