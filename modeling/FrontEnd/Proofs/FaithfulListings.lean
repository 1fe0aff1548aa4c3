import FrontEnd.Proofs.CompilationUnit.ShownTexts
import FrontEnd.Proofs.Coherence.Runs
import FrontEnd.Proofs.Rejections
import FrontEnd.Proofs.SessionListings

/-! # Listings tell parsed items apart

What is shown of an expression tells the expression, up to positions and ids and the digits of
oversized literals. Constant forms hide nothing of what is parsed: no source spells a base type, so
one that is shown stands for its name. -/

namespace FrontEnd

variable {hash : Hasher}

namespace CompilationUnit

open Listing

variable {constants : Constants} {u v : CompilationUnit hash} {id a b form : ExprId} {shown : Shown}
  {function : FunctionItem} {header : HeaderSyntax} {statement : StatementSyntax}

/-! ## Expressions that are alike -/

/-- Expressions of two units are alike, up to their positions and ids. Of oversized literals only
that they are oversized is compared. -/
inductive ExprsAlike (u v : CompilationUnit hash) : ExprId → ExprId → Prop where
  | literal {a b value value' pos pos'} : u.Holds a (.intLiteral value) pos →
      v.Holds b (.intLiteral value') pos' → value.small? = value'.small? → ExprsAlike u v a b
  | name {a b name name' pos pos' text} : u.Holds a (.name name) pos →
      v.Holds b (.name name') pos' → u.names.text? name = some text →
      v.names.text? name' = some text → ExprsAlike u v a b
  | return_ {a b value value' pos pos'} : u.Holds a (.return_ value) pos →
      v.Holds b (.return_ value') pos' → ExprsAlike u v value value' → ExprsAlike u v a b
  | functionType {a b result result' pos pos'} : u.Holds a (.functionType result) pos →
      v.Holds b (.functionType result') pos' → ExprsAlike u v result result' → ExprsAlike u v a b

structure ItemsAlike (u v : CompilationUnit hash) (f g : FunctionItem) : Prop where
  name : ∃ text, u.names.text? f.name = some text ∧ v.names.text? g.name = some text
  signature : ExprsAlike u v f.signature g.signature
  body : ExprsAlike u v f.body g.body

/-- What is alike is spelled alike: as deep, and around the same name. -/
theorem ExprsAlike.spells (h : ExprsAlike u v a b) {opens opens' : List Position}
    {base base' : Name} {pos pos' : Position} (ha : u.Spells a opens base pos)
    (hb : v.Spells b opens' base' pos') :
    opens.length = opens'.length ∧ u.names.text? base = v.names.text? base' := by
  induction h generalizing opens opens' with
  | literal hholds _ _ =>
      cases ha with
      | name hid => cases (hholds.unique hid).1
      | function hid _ => cases (hholds.unique hid).1
  | return_ hholds _ _ _ =>
      cases ha with
      | name hid => cases (hholds.unique hid).1
      | function hid _ => cases (hholds.unique hid).1
  | name hholds hholds' htext htext' =>
      cases ha with
      | function hid _ => cases (hholds.unique hid).1
      | name hid =>
          cases hb with
          | function hid' _ => cases (hholds'.unique hid').1
          | name hid' =>
              cases (hholds.unique hid).1
              cases (hholds'.unique hid').1
              exact ⟨rfl, htext.trans htext'.symm⟩
  | functionType hholds hholds' _ ih =>
      cases ha with
      | name hid => cases (hholds.unique hid).1
      | function hid hresult =>
          cases hb with
          | name hid' => cases (hholds'.unique hid').1
          | function hid' hresult' =>
              cases (hholds.unique hid).1
              cases (hholds'.unique hid').1
              obtain ⟨hdepth, htext⟩ := ih hresult hresult'
              exact ⟨congrArg (· + 1) hdepth, htext⟩

/-! ## What is told by what is shown -/

/-- A shown tree tells of an expression all but its types. The integer type may stand for its name,
which it is the constant form of. -/
inductive Tells (u : CompilationUnit hash) : Shown → ExprId → Prop where
  | leaf {id expr pos leaf type?} : u.Holds id expr pos → u.ShowsLeaf expr leaf →
      Tells u (.leaf leaf type?) id
  | constant {id name pos type?} : u.Holds id (.name name) pos →
      u.names.text? name = some BaseType.int32.name → Tells u (.leaf (.baseType .int32) type?) id
  | around {id expr pos wrapper child shown type?} : u.Holds id expr pos →
      ShowsAround expr wrapper child → Tells u shown child →
      Tells u (.around wrapper shown type?) id

/-- What tells of a base type expression shows that. -/
theorem Tells.baseType_eq {kind : BaseType} {pos : Position} (h : u.Tells shown id)
    (hid : u.Holds id (.baseType kind) pos) : ∃ type?, shown = .leaf (.baseType kind) type? := by
  cases h with
  | leaf hholds hleaf =>
      obtain ⟨rfl, -⟩ := hid.unique hholds
      cases hleaf
      exact ⟨_, rfl⟩
  | constant hholds _ => cases (hid.unique hholds).1
  | around hholds haround _ =>
      obtain ⟨rfl, -⟩ := hid.unique hholds
      cases haround

theorem Tells.functionType_eq {result : ExprId} {pos : Position} (h : u.Tells shown id)
    (hid : u.Holds id (.functionType result) pos) :
    ∃ inner type?, shown = .around .functionType inner type? ∧ u.Tells inner result := by
  cases h with
  | leaf hholds hleaf =>
      obtain ⟨rfl, -⟩ := hid.unique hholds
      cases hleaf
  | constant hholds _ => cases (hid.unique hholds).1
  | around hholds haround htells =>
      obtain ⟨rfl, -⟩ := hid.unique hholds
      cases haround
      exact ⟨_, _, rfl, htells⟩

/-- What tells of the constant form of an expression tells of the expression. -/
theorem Form.tells (hint32 : u.Holds BaseType.int32.exprId (.baseType .int32) .nowhere)
    (hform : u.Form (standardConstants u.names) id (some form)) (h : u.Tells shown form) :
    u.Tells shown id := by
  generalize hsome : some form = form? at hform
  induction hform generalizing form shown with
  | literal hid =>
      cases hsome
      exact h
  | baseType hid =>
      cases hsome
      exact h
  | name hid hbound =>
      cases hsome
      obtain ⟨htext, rfl⟩ := standardConstants_eq_some_iff.mp hbound
      obtain ⟨type?, rfl⟩ := h.baseType_eq hint32
      exact .constant hid htext
  | return_ hid => cases hsome
  | function hid _ hmade ih =>
      cases hsome
      obtain ⟨inner, type?, rfl, hinner⟩ := h.functionType_eq hmade
      exact .around hid (.functionType _) (ih hinner rfl)
  | formless hid _ _ => cases hsome

/-- Expressions that can be shown, where what tells of the form in which one is shown tells of the
expression itself. -/
structure ShownTruly (u : CompilationUnit hash) (part : ExprId → Prop) : Prop extends
    Showable u part where
  tells : ∀ {id shown}, part id → u.Tells shown (u.shownForm id) → u.Tells shown id

theorem ShownTruly.tells_of_shows {part : ExprId → Prop} (h : u.ShownTruly part) (hid : part id)
    (hshows : u.Shows id shown) : u.Tells shown id := by
  induction hshows with
  | leaf hmade _ hholds hleaf =>
      obtain rfl := shownAs_iff.mp hmade
      exact h.tells hid (.leaf hholds hleaf)
  | around hmade _ hholds haround _ ih =>
      obtain rfl := shownAs_iff.mp hmade
      have hchild := h.child hid ((child?_of_holds hholds).trans haround.child?_eq)
      exact h.tells hid (.around hholds haround (ih hchild))

/-! ## Forms that are listed -/

/-- The expressions that the listing of an item comes to: from each of them it goes on to what the
form in which that is shown has inside. -/
inductive Lists (u : CompilationUnit hash) (function : FunctionItem) : ExprId → Prop where
  | signature : Lists u function function.signature
  | body : Lists u function function.body
  | inside {id child} : Lists u function id → u.child? (u.shownForm id) = some child →
      Lists u function child

/-- The constant forms of all that is listed with an item are true. -/
def FormsHold (u : CompilationUnit hash) (function : FunctionItem) : Prop :=
  ∀ id form, u.Lists function id → (u.findingsOf id).constantForm = some (some form) →
    u.Form (standardConstants u.names) id (some form)

theorem Sound.formsHold (h : u.Sound (standardConstants u.names)) (function : FunctionItem) :
    u.FormsHold function := fun id form _ hform => h.forms id (some form) hform

/-- What is listed with an item that was never evaluated are its parts, which have no forms. -/
theorem Unevaluated.formsHold (hsignature : u.Unevaluated function.signature)
    (hbody : u.Unevaluated function.body) : u.FormsHold function := by
  have hnone : ∀ id, u.PartOf function id → (u.findingsOf id).constantForm = none := by
    rintro id ⟨top, outer, rfl | rfl, htrail⟩
    · exact hsignature id outer htrail
    · exact hbody id outer htrail
  have hpart : ∀ id, u.Lists function id → u.PartOf function id := by
    intro id hid
    induction hid with
    | signature => exact ⟨_, [], .inl rfl, .stay _⟩
    | body => exact ⟨_, [], .inr rfl, .stay _⟩
    | @inside id child _ hchild ih =>
        rw [shownForm, hnone id ih] at hchild
        obtain ⟨top, outer, htop, htrail⟩ := ih
        exact ⟨top, id :: outer, htop, .out hchild htrail⟩
  intro id form hid hform
  cases (hnone id (hpart id hid)).symm.trans hform

theorem FormsHold.shownForm_cases (h : u.FormsHold function) (hid : u.Lists function id) :
    u.shownForm id = id ∨ u.Form (standardConstants u.names) id (some (u.shownForm id)) := by
  unfold shownForm
  split
  · rename_i form hform
    exact .inr (h id form hid hform)
  · exact .inl rfl

/-- True forms are shown truly. The types that are shown need not be true, only be there. -/
theorem FormsHold.shownTruly (hforms : u.FormsHold function) (h : u.Coherent) :
    u.ShownTruly (u.Lists function) where
  legible := by
    intro id depth hid hlegible
    rcases hforms.shownForm_cases hid with hself | hform
    · rwa [hself]
    · exact hform.legible (constantsLegible_of_holds (h.baseExprs .int32)) hlegible
  child := .inside
  type {id} _ := h.typesDescend.exists_showsType (fun id type => (h.findingsFit id).type type) id _
  tells := by
    intro id shown hid htells
    rcases hforms.shownForm_cases hid with hself | hform
    · rwa [hself] at htells
    · exact hform.tells (h.baseExprs .int32) htells

/-! ## Items -/

structure TellsItem (u : CompilationUnit hash) (shown : ShownItem) (function : FunctionItem) :
    Prop where
  name : u.names.text? function.name = some shown.name
  signature : u.Tells shown.signature function.signature
  body : u.Tells shown.body function.body

theorem Coherent.knowsNames (h : u.Coherent) : u.KnowsNames where
  exprs id name pos hid := (h.exprsFit id _ pos hid).name name rfl
  items id item hitem := (h.itemsFit id item hitem).name

/-- The listing of an item is a text that tells of the item. -/
theorem FormsHold.exists_tellsItem (hforms : u.FormsHold function) (h : u.Coherent) {item : ItemId}
    (hitem : u.HoldsItem item function) :
    ∃ shown, u.itemListing item = .ok shown.text ∧ u.TellsItem shown function := by
  have htruly := hforms.shownTruly h
  have hfits := h.itemsFit item function hitem
  have hlegible := h.knowsNames.legibleItem h.exprsDescend hitem hfits.signature hfits.body
  obtain ⟨shown, hshown, hlisting⟩ := htruly.exists_itemListing_eq h.exprsDescend h.typesDescend
    h.findings_size hlegible .signature .body
  obtain ⟨hname, hsignature, hbody⟩ := hshown
  rw [hitem.item_eq] at hname hsignature hbody
  exact ⟨shown, hlisting, hname, htruly.tells_of_shows .signature hsignature,
    htruly.tells_of_shows .body hbody⟩

/-! ## Parsed expressions -/

/-- An expression as it is parsed, without base types. -/
inductive Written (u : CompilationUnit hash) : ExprId → Prop where
  | literal {id value pos} : u.Holds id (.intLiteral value) pos → Written u id
  | name {id name pos} : u.Holds id (.name name) pos → Written u id
  | around {id expr pos wrapper child} : u.Holds id expr pos → ShowsAround expr wrapper child →
      Written u child → Written u id

theorem Spells.written {opens : List Position} {base : Name} {pos : Position}
    (h : u.Spells id opens base pos) : u.Written id := by
  induction h with
  | name hid => exact .name hid
  | function hid _ ih => exact .around hid (.functionType _) ih

theorem SpellsValue.written {value : ValueSyntax} (h : u.SpellsValue id value) : u.Written id := by
  cases h with
  | literal hid => exact .literal hid
  | type hspells => exact Spells.written hspells

theorem SpellsItem.written (h : u.SpellsItem function header statement) :
    u.Written function.signature ∧ u.Written function.body := by
  obtain ⟨value, hbody, hvalue⟩ := h.body
  exact ⟨h.signature.written, .around hbody (.return_ _) hvalue.written⟩

theorem Written.not_baseType (h : u.Written id) (kind : BaseType) (pos : Position) :
    ¬ u.Holds id (.baseType kind) pos := by
  intro hid
  cases h with
  | literal hholds => cases (hid.unique hholds).1
  | name hholds => cases (hid.unique hholds).1
  | around hholds haround _ =>
      obtain ⟨rfl, -⟩ := hid.unique hholds
      cases haround

theorem Written.child (h : u.Written id) {expr : Expr} {pos : Position} {wrapper : Wrapper}
    {child : ExprId} (hid : u.Holds id expr pos) (haround : ShowsAround expr wrapper child) :
    u.Written child := by
  cases h with
  | literal hholds =>
      obtain ⟨rfl, -⟩ := hid.unique hholds
      cases haround
  | name hholds =>
      obtain ⟨rfl, -⟩ := hid.unique hholds
      cases haround
  | around hholds haround' hchild =>
      obtain ⟨rfl, -⟩ := hid.unique hholds
      cases haround <;> cases haround' <;> exact hchild

/-- Parsed expressions of which one tree tells are alike. A base type that is shown for one of them
is a constant form, so that it is shown for the same name in both. -/
theorem Tells.alike (h : u.Tells shown a) (h' : v.Tells shown b) (ha : u.Written a)
    (hb : v.Written b) : ExprsAlike u v a b := by
  induction h generalizing b with
  | leaf hholds hleaf =>
      cases hleaf with
      | literal value =>
          cases h' with
          | leaf hholds' hleaf' =>
              generalize hsmall : value.small? = small? at hleaf'
              cases hleaf' with
              | literal value' => exact .literal hholds hholds' hsmall
      | name htext =>
          cases h' with
          | leaf hholds' hleaf' =>
              cases hleaf' with
              | name htext' => exact .name hholds hholds' htext htext'
      | baseType kind => exact absurd hholds (ha.not_baseType kind _)
  | constant hholds htext =>
      cases h' with
      | leaf hholds' hleaf' =>
          cases hleaf'
          exact absurd hholds' (hb.not_baseType _ _)
      | constant hholds' htext' => exact .name hholds hholds' htext htext'
  | around hholds haround _ ih =>
      cases h' with
      | around hholds' haround' htells' =>
          have hchild := ih htells' (ha.child hholds haround) (hb.child hholds' haround')
          cases haround with
          | return_ value =>
              cases haround'
              exact .return_ hholds hholds' hchild
          | functionType result =>
              cases haround'
              exact .functionType hholds hholds' hchild

/-- Parsed items of which one tree tells are alike. -/
theorem TellsItem.alike {shown : ShownItem} {other : FunctionItem} {header' : HeaderSyntax}
    {statement' : StatementSyntax} (h : u.TellsItem shown function) (h' : v.TellsItem shown other)
    (hspells : u.SpellsItem function header statement)
    (hspells' : v.SpellsItem other header' statement') : ItemsAlike u v function other := by
  obtain ⟨hsignature, hbody⟩ := hspells.written
  obtain ⟨hsignature', hbody'⟩ := hspells'.written
  exact ⟨⟨_, h.name, h'.name⟩, h.signature.alike h'.signature hsignature hsignature',
    h.body.alike h'.body hbody hbody'⟩

end CompilationUnit

namespace Session

open CompilationUnit

variable {s t : Session hash} {item other : ItemId}

/-! ## Items of runs -/

/-- An item was parsed from tokens with known names, whatever was done before and since. -/
inductive HasParsed : Session hash → ItemId → Prop where
  | mk {s t : Session hash} {tokens : List Token} {item : ItemId} {u : CompilationUnit hash} :
      Operations (new hash) s → (∀ token ∈ tokens, ∀ name ∈ token.name?, s.unit.Knows name) →
      s.unit.parse tokens = (.ok item, u) → Operations { s with unit := u } t → HasParsed t item

/-- What was parsed is there still, and is spelled as it was. -/
theorem HasParsed.exists_spells (h : s.HasParsed item) :
    s.unit.Coherent ∧ ∃ function header statement, s.unit.HoldsItem item function ∧
      s.unit.SpellsItem function header statement := by
  obtain @⟨before, _, tokens, _, u, hbefore, htokens, hparse, hrun⟩ := h
  have hparsed := hbefore.tail (.parse before tokens htokens)
  rw [hparse] at hparsed
  obtain ⟨hgrown, hcoherent⟩ := grown_and_coherent hparsed hrun
  refine ⟨hcoherent, ?_⟩
  cases hread : readItem tokens with
  | error e =>
      have herror := parse_of_readItem_eq_error before.unit hread
      rw [hparse] at herror
      cases herror
  | ok parts =>
      obtain ⟨header, statement⟩ := parts
      obtain ⟨function, hok, hchains, hspells⟩ := parse_twoChains before.unit hread
      rw [hparse] at hok hchains hspells
      cases hok
      exact ⟨function, header, statement,
        hgrown.holdsItem (holdsItem_of_items_eq_push hchains.items_eq),
        hgrown.spellsItem hspells⟩

theorem Reachable.formsHold (h : s.Reachable) (function : FunctionItem) :
    s.unit.FormsHold function := h.sound.unit.formsHold function

/-- Parsed items with one listing are alike, in whatever units they are and however deep: beyond the
last level that is indented, too. An item that was not checked has no constant forms, so that all
that are listed hold by `Unevaluated.formsHold`; those that a session finds hold as well. -/
theorem itemListing_faithful (hs : s.HasParsed item) (ht : t.HasParsed other)
    (hitem : s.unit.FormsHold (s.unit.item item))
    (hother : t.unit.FormsHold (t.unit.item other)) :
    ∃ text text', s.unit.itemListing item = .ok text ∧ t.unit.itemListing other = .ok text' ∧
      (text = text' → ItemsAlike s.unit t.unit (s.unit.item item) (t.unit.item other)) := by
  obtain ⟨hcoherent, function, _, _, hholds, hspells⟩ := hs.exists_spells
  obtain ⟨hcoherent', function', _, _, hholds', hspells'⟩ := ht.exists_spells
  rw [hholds.item_eq] at hitem ⊢
  rw [hholds'.item_eq] at hother ⊢
  obtain ⟨shown, hlisting, htells⟩ := hitem.exists_tellsItem hcoherent hholds
  obtain ⟨shown', hlisting', htells'⟩ := hother.exists_tellsItem hcoherent' hholds'
  refine ⟨_, _, hlisting, hlisting', fun htexts => ?_⟩
  obtain rfl := Listing.ShownItem.text_injective htexts
  exact htells.alike htells' hspells hspells'

/-- A function that is parsed twice has one listing, which tells that its items are alike. -/
theorem itemListing_faithful_literalUnit :
    ItemsAlike (literalUnit ⟨1⟩ 1) ((literalUnit ⟨1⟩ 1).parse (literalFunction ⟨1⟩ 1)).2
      ((literalUnit ⟨1⟩ 1).item ⟨0⟩)
      (((literalUnit ⟨1⟩ 1).parse (literalFunction ⟨1⟩ 1)).2.item ⟨1⟩) := by
  have hparse : twoNames.parse (literalFunction ⟨1⟩ 1) = (.ok ⟨0⟩, literalUnit ⟨1⟩ 1) :=
    Prod.ext (by decide +kernel) rfl
  have hparse' : (literalUnit ⟨1⟩ 1).parse (literalFunction ⟨1⟩ 1) =
      (.ok ⟨1⟩, ((literalUnit ⟨1⟩ 1).parse (literalFunction ⟨1⟩ 1)).2) :=
    Prod.ext (by decide +kernel) rfl
  have hs : HasParsed ⟨literalUnit ⟨1⟩ 1, [Prelude.initial], []⟩ ⟨0⟩ :=
    .mk twoNames_operations (by decide +kernel) hparse .refl
  have ht : HasParsed ⟨((literalUnit ⟨1⟩ 1).parse (literalFunction ⟨1⟩ 1)).2,
      [Prelude.initial], []⟩ ⟨1⟩ :=
    .mk literalUnit_operations (by decide +kernel) hparse' .refl
  have hforms := (literalUnit_reachable (by decide : (⟨1⟩ : Name).index < 2) 1).formsHold
    ((literalUnit ⟨1⟩ 1).item ⟨0⟩)
  have hnone : ∀ id, (((literalUnit ⟨1⟩ 1).parse (literalFunction ⟨1⟩ 1)).2.findingsOf
      id).constantForm = none :=
    part_eq_none_of_all Findings.constantForm rfl (by decide +kernel)
  have hforms' : ((literalUnit ⟨1⟩ 1).parse (literalFunction ⟨1⟩ 1)).2.FormsHold
      (((literalUnit ⟨1⟩ 1).parse (literalFunction ⟨1⟩ 1)).2.item ⟨1⟩) :=
    Unevaluated.formsHold (fun id _ _ => hnone id) (fun id _ _ => hnone id)
  have htexts : (literalUnit ⟨1⟩ 1).itemListing ⟨0⟩ =
      ((literalUnit ⟨1⟩ 1).parse (literalFunction ⟨1⟩ 1)).2.itemListing ⟨1⟩ := by
    decide +kernel
  obtain ⟨text, text', htext, htext', halike⟩ := itemListing_faithful hs ht hforms hforms'
  exact halike (Except.ok.inj (htext.symm.trans (htexts.trans htext')))

end Session

end FrontEnd
