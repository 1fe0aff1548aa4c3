import FrontEnd.Proofs.CompilationUnit.Listing
import FrontEnd.Proofs.Text.SelfDelimiting

/-! # What listings show

What is shown of an expression is a tree. Its text is made by recursion, a node around its child,
and the listing, which goes inwards once and then closes what it has opened, is that text. -/

namespace FrontEnd

namespace Listing

/-! ## Shown trees and their texts -/

/-- The blanks before a line: two more a level, up to the thirty-second. -/
def margin : Nat → String
  | 0 => ""
  | level + 1 => if level < 32 then margin level ++ "  " else margin level

/-- A type, as so many function types around a base type. -/
structure ShownType where
  depth : Nat
  base : BaseType
deriving DecidableEq

def typeText : Nat → BaseType → String
  | 0, base => base.name ++ "()"
  | depth + 1, base => "FunctionType(return_type = " ++ typeText depth base ++ ")"

theorem typeText_zero (base : BaseType) : typeText 0 base = base.name ++ "()" := rfl

theorem typeText_succ (depth : Nat) (base : BaseType) :
    typeText (depth + 1) base = "FunctionType(return_type = " ++ typeText depth base ++ ")" := rfl

def ShownType.text (type : ShownType) : String := typeText type.depth type.base

/-- An expression without a child. An oversized literal has no value to show. -/
inductive Leaf where
  | literal (value? : Option Nat)
  | name (text : String)
  | baseType (kind : BaseType)
deriving DecidableEq

def Leaf.label : Leaf → String
  | literal _ => "IntLiteralExpr"
  | name _ => "NameExpr"
  | baseType kind => kind.name ++ "Expr"

def Leaf.scalar? : Leaf → Option String
  | literal value? => some ("value = " ++ Text.number value?)
  | name text => some ("name = " ++ Text.quote text)
  | baseType _ => none

/-- A leaf is one line, with its scalar and then its type. -/
def Leaf.text (leaf : Leaf) (type? : Option ShownType) : String :=
  leaf.label ++ "(" ++ String.intercalate ", "
    (leaf.scalar?.toList ++ (type?.map fun type => "type = " ++ type.text).toList) ++ ")"

/-- What has a child. -/
inductive Wrapper where
  | return_
  | functionType
deriving DecidableEq

def Wrapper.label : Wrapper → String
  | return_ => "ReturnExpr"
  | functionType => "FunctionTypeExpr"

def Wrapper.field : Wrapper → String
  | return_ => "value"
  | functionType => "return_type"

/-- What is shown of an expression, with its type if one is shown. -/
inductive Shown where
  | leaf (leaf : Leaf) (type? : Option ShownType)
  | around (wrapper : Wrapper) (child : Shown) (type? : Option ShownType)
deriving DecidableEq

namespace Shown

def depth : Shown → Nat
  | .leaf _ _ => 0
  | .around _ child _ => child.depth + 1

/-- A node prints its child one level deeper, then its type on a line of its own, and then it is
closed at its own level. -/
def text : (level : Nat) → Shown → String
  | _, .leaf shown type? => shown.text type?
  | level, .around wrapper child type? =>
    wrapper.label ++ "(\n" ++
      margin (level + 1) ++ wrapper.field ++ " = " ++ child.text (level + 1) ++ ",\n" ++
      (match type? with
      | some type => margin (level + 1) ++ "type = " ++ type.text ++ ",\n"
      | none => "") ++
      margin level ++ ")"

theorem text_leaf (level : Nat) (leaf : Leaf) (type? : Option ShownType) :
    (Shown.leaf leaf type?).text level = leaf.text type? := rfl

theorem text_around (level : Nat) (wrapper : Wrapper) (child : Shown) (type? : Option ShownType) :
    (Shown.around wrapper child type?).text level = wrapper.label ++ "(\n" ++
      margin (level + 1) ++ wrapper.field ++ " = " ++ child.text (level + 1) ++ ",\n" ++
      (match type? with
      | some type => margin (level + 1) ++ "type = " ++ type.text ++ ",\n"
      | none => "") ++
      margin level ++ ")" := rfl

end Shown

structure ShownItem where
  name : String
  signature : Shown
  body : Shown
deriving DecidableEq

def ShownItem.text (item : ShownItem) : String :=
  "FunctionItem(\n" ++
    margin 1 ++ "name = " ++ Text.quote item.name ++ ",\n" ++
    margin 1 ++ "type = " ++ item.signature.text 1 ++ ",\n" ++
    margin 1 ++ "body = " ++ item.body.text 1 ++ ",\n" ++
    ")\n"

theorem ShownItem.text_eq (item : ShownItem) : item.text =
    "FunctionItem(\n" ++
      margin 1 ++ "name = " ++ Text.quote item.name ++ ",\n" ++
      margin 1 ++ "type = " ++ item.signature.text 1 ++ ",\n" ++
      margin 1 ++ "body = " ++ item.body.text 1 ++ ",\n" ++
      ")\n" := rfl

theorem indent_eq_margin (level : Nat) : indent level = margin level := by
  induction level with
  | zero => rfl
  | succ level ih =>
      rw [margin, ← ih, indent, indent]
      split
      · rename_i hlt
        have hmin : min (level + 1) maxLevel = min level maxLevel + 1 := by
          rw [maxLevel]
          omega
        rw [hmin, Nat.mul_succ, List.replicate_add, String.ofList_append]
        rfl
      · rename_i hge
        have hmin : min (level + 1) maxLevel = min level maxLevel := by
          rw [maxLevel]
          omega
        rw [hmin]

end Listing

namespace CompilationUnit

open Listing

variable {hash : Hasher} {constants : Constants} {u : CompilationUnit hash} {id form : ExprId}
  {expr : Expr} {type? type?' : Option ShownType} {leaf leaf' : Leaf} {shown shown' : Shown}
  {depth level : Nat}

/-! ## What is shown of an expression -/

/-- An expression is shown in its constant form, if one is recorded, and otherwise as itself. -/
inductive ShownAs (u : CompilationUnit hash) (id : ExprId) : ExprId → Prop where
  | form {made : ExprId} : (u.findingsOf id).constantForm = some (some made) → ShownAs u id made
  | itself : (∀ form, (u.findingsOf id).constantForm ≠ some (some form)) → ShownAs u id id

/-- An expression is shown with the type of the form in which it is shown, or else with its own. -/
inductive ShowsType (u : CompilationUnit hash) (id form : ExprId) : Option ShownType → Prop where
  | ofForm {type depth base} : (u.findingsOf form).type = some type → u.Shape type depth base →
      ShowsType u id form (some ⟨depth, base⟩)
  | ofItself {type depth base} : (u.findingsOf form).type = none →
      (u.findingsOf id).type = some type → u.Shape type depth base →
      ShowsType u id form (some ⟨depth, base⟩)
  | untyped : (u.findingsOf form).type = none → (u.findingsOf id).type = none →
      ShowsType u id form none

inductive ShowsLeaf (u : CompilationUnit hash) : Expr → Leaf → Prop where
  | literal (value : IntegerValue Name) :
      ShowsLeaf u (.intLiteral value) (.literal value.small?)
  | name {name : Name} {text : String} : u.names.text? name = some text →
      ShowsLeaf u (.name name) (.name text)
  | baseType (kind : BaseType) : ShowsLeaf u (.baseType kind) (.baseType kind)

/-- An expression with a child, as what stands around it. -/
inductive ShowsAround : Expr → Wrapper → ExprId → Prop where
  | return_ (value : ExprId) : ShowsAround (.return_ value) .return_ value
  | functionType (result : ExprId) : ShowsAround (.functionType result) .functionType result

theorem ShowsAround.child?_eq {wrapper : Wrapper} {child : ExprId}
    (h : ShowsAround expr wrapper child) : expr.child? = some child := by
  cases h <;> rfl

/-- What is shown of an expression, found by recursion: at each step first its constant form is
taken, and then the child of that. -/
inductive Shows (u : CompilationUnit hash) : ExprId → Shown → Prop where
  | leaf {id made expr pos leaf type?} : u.ShownAs id made → u.ShowsType id made type? →
      u.Holds made expr pos → u.ShowsLeaf expr leaf → Shows u id (.leaf leaf type?)
  | around {id made expr pos wrapper child shown type?} : u.ShownAs id made →
      u.ShowsType id made type? → u.Holds made expr pos → ShowsAround expr wrapper child →
      Shows u child shown → Shows u id (.around wrapper shown type?)

structure ShowsItem (u : CompilationUnit hash) (item : ItemId) (shown : ShownItem) : Prop where
  name : u.names.text? (u.item item).name = some shown.name
  signature : u.Shows (u.item item).signature shown.signature
  body : u.Shows (u.item item).body shown.body

theorem shownAs_iff : u.ShownAs id form ↔ u.shownForm id = form := by
  unfold shownForm
  split
  · rename_i found hfound
    constructor
    · intro h
      cases h with
      | form hform =>
          rw [hfound] at hform
          exact Option.some.inj (Option.some.inj hform)
      | itself hnone => exact absurd hfound (hnone found)
    · rintro rfl
      exact .form hfound
  · rename_i hnone
    constructor
    · intro h
      cases h with
      | form hform => exact absurd hform (hnone form)
      | itself _ => rfl
    · rintro rfl
      exact .itself hnone

/-- What has a constant form is there, as this is. -/
theorem ShownAs.lt (h : u.ShownAs id form) (hsize : u.findings.size = u.exprs.size)
    (hform : form.index < u.exprs.size) : id.index < u.exprs.size := by
  cases h with
  | itself _ => exact hform
  | form hfound =>
      rw [← hsize]
      by_contra hge
      rw [findingsOf_eq_of_ge (Nat.le_of_not_lt hge)] at hfound
      cases hfound

/-! ## Types -/

theorem typeText_eq (depth : Nat) (base : BaseType) : typeText depth base =
    String.join (List.replicate depth "FunctionType(return_type = ") ++ base.name ++ "()" ++
      String.ofList (List.replicate depth ')') := by
  induction depth with
  | zero => simp [typeText_zero]
  | succ depth ih =>
      rw [typeText_succ, ih, List.replicate_succ, List.replicate_succ', String.join_cons,
        String.ofList_append]
      simp only [String.append_assoc]

theorem TypesDescend.typeListing_eq (h : u.TypesDescend) {type : TypeId} {base : BaseType}
    (htype : u.Shape type depth base) : u.typeListing type = typeText depth base := by
  rw [typeListing, h.typeShape_eq htype, typeText_eq, Nat.zero_add]

theorem ShowsType.shownTypeListing?_eq (h : u.ShowsType id (u.shownForm id) type?)
    (hdescend : u.TypesDescend) :
    u.shownTypeListing? id = .ok (type?.map ShownType.text) := by
  unfold shownTypeListing? shownType?
  cases h with
  | ofForm hform hshape =>
      rw [hform, Option.some_or]
      dsimp only
      rw [checkIndex_bind_of_lt hshape.lt, hdescend.typeListing_eq hshape]
      rfl
  | ofItself hnone hself hshape =>
      rw [hnone, hself, Option.none_or]
      dsimp only
      rw [checkIndex_bind_of_lt hshape.lt, hdescend.typeListing_eq hshape]
      rfl
  | untyped hnone hnone' => simp [hnone, hnone']

theorem ShowsType.unique (h : u.ShowsType id form type?) (h' : u.ShowsType id form type?') :
    type? = type?' := by
  cases h with
  | ofForm hform hshape =>
      cases h' with
      | ofForm hform' hshape' =>
          rw [hform] at hform'
          cases hform'
          obtain ⟨rfl, rfl⟩ := hshape.unique hshape'
          rfl
      | ofItself hnone _ _ => cases hform.symm.trans hnone
      | untyped hnone _ => cases hform.symm.trans hnone
  | ofItself hnone hself hshape =>
      cases h' with
      | ofForm hform _ => cases hnone.symm.trans hform
      | ofItself _ hself' hshape' =>
          rw [hself] at hself'
          cases hself'
          obtain ⟨rfl, rfl⟩ := hshape.unique hshape'
          rfl
      | untyped _ hnone' => cases hself.symm.trans hnone'
  | untyped hnone hnone' =>
      cases h' with
      | ofForm hform _ => cases hnone.symm.trans hform
      | ofItself _ hself _ => cases hnone'.symm.trans hself
      | untyped _ _ => rfl

theorem ShowsLeaf.unique (h : u.ShowsLeaf expr leaf) (h' : u.ShowsLeaf expr leaf') :
    leaf = leaf' := by
  cases h with
  | literal value =>
      cases h'
      rfl
  | name htext =>
      cases h' with
      | name htext' =>
          rw [htext] at htext'
          cases htext'
          rfl
  | baseType kind =>
      cases h'
      rfl

/-- One tree is shown of an expression. -/
theorem Shows.unique (h : u.Shows id shown) (h' : u.Shows id shown') : shown = shown' := by
  induction h generalizing shown' with
  | leaf hmade htype hholds hleaf =>
      obtain rfl := shownAs_iff.mp hmade
      cases h' with
      | leaf hmade' htype' hholds' hleaf' =>
          obtain rfl := shownAs_iff.mp hmade'
          obtain ⟨rfl, -⟩ := hholds.unique hholds'
          rw [hleaf.unique hleaf', htype.unique htype']
      | around hmade' _ hholds' hwraps _ =>
          obtain rfl := shownAs_iff.mp hmade'
          obtain ⟨rfl, -⟩ := hholds.unique hholds'
          cases hwraps <;> cases hleaf
  | around hmade htype hholds hwraps _ ih =>
      obtain rfl := shownAs_iff.mp hmade
      cases h' with
      | leaf hmade' _ hholds' hleaf =>
          obtain rfl := shownAs_iff.mp hmade'
          obtain ⟨rfl, -⟩ := hholds.unique hholds'
          cases hwraps <;> cases hleaf
      | around hmade' htype' hholds' hwraps' hchild =>
          obtain rfl := shownAs_iff.mp hmade'
          obtain ⟨rfl, -⟩ := hholds.unique hholds'
          rw [htype.unique htype']
          cases hwraps <;> cases hwraps' <;> rw [ih hchild]

theorem ShowsItem.unique {item : ItemId} {shown shown' : ShownItem} (h : u.ShowsItem item shown)
    (h' : u.ShowsItem item shown') : shown = shown' := by
  obtain ⟨name, signature, body⟩ := shown
  obtain ⟨name', signature', body'⟩ := shown'
  obtain rfl : name = name' := Option.some.inj (h.name.symm.trans h'.name)
  obtain rfl : signature = signature' := h.signature.unique h'.signature
  obtain rfl : body = body' := h.body.unique h'.body
  rfl

/-! ## The listing -/

theorem ShowsLeaf.shownNode_eq (h : u.ShowsLeaf expr leaf) (hid : id.index < u.exprs.size)
    {pos : Position} (hholds : u.Holds (u.shownForm id) expr pos)
    (htype : u.ShowsType id (u.shownForm id) type?) (hdescend : u.TypesDescend) (level : Nat) :
    u.shownNode level id = .ok (.leaf (leaf.text type?)) := by
  unfold shownNode
  rw [checkIndex_bind_of_lt hid, checkIndex_bind_of_lt hholds.lt,
    htype.shownTypeListing?_eq hdescend]
  cases h with
  | literal value =>
      simp only [hholds.expr_eq, value.text_eq_number]
      cases type? <;> rfl
  | name htext =>
      simp only [hholds.expr_eq, Interner.lookup_eq_ok_iff.mpr htext]
      cases type? <;> rfl
  | baseType kind =>
      simp only [hholds.expr_eq]
      cases type? <;> rfl

/-- A shown node with a child, as a frame around that. -/
def frame (level : Nat) (wrapper : Wrapper) (type? : Option ShownType) : Frame :=
  ⟨level, wrapper.label, wrapper.field, type?.map ShownType.text⟩

theorem frame_text (level : Nat) (wrapper : Wrapper) (type? : Option ShownType) (child : Shown) :
    (frame level wrapper type?).opening ++ child.text (level + 1) ++
      (frame level wrapper type?).closing = (Shown.around wrapper child type?).text level := by
  rw [Shown.text_around, frame, Frame.opening, Frame.closing]
  cases type? <;> simp [indent_eq_margin, String.append_assoc]

theorem ShowsAround.shownNode_eq {wrapper : Wrapper} {child : ExprId}
    (h : ShowsAround expr wrapper child) (hid : id.index < u.exprs.size) {pos : Position}
    (hholds : u.Holds (u.shownForm id) expr pos)
    (htype : u.ShowsType id (u.shownForm id) type?) (hdescend : u.TypesDescend) (level : Nat) :
    u.shownNode level id = .ok (.node (frame level wrapper type?) child) := by
  unfold shownNode
  rw [checkIndex_bind_of_lt hid, checkIndex_bind_of_lt hholds.lt,
    htype.shownTypeListing?_eq hdescend]
  cases h with
  | return_ value => simp only [hholds.expr_eq, frame]; rfl
  | functionType result => simp only [hholds.expr_eq, frame]; rfl

/-- The frames that are left open on the way to the leaf make the text of the tree with it. -/
theorem Shows.exists_shownChain_eq (h : u.Shows id shown) (hdescend : u.TypesDescend)
    (hsize : u.findings.size = u.exprs.size) {limit : Nat}
    (hlimit : shown.depth < limit) (outer : List Frame) (level : Nat) :
    ∃ frames leaf, u.shownChain outer limit level id = .ok (frames ++ outer, leaf) ∧
      String.join (frames.reverse.map Frame.opening) ++ leaf ++
        String.join (frames.map Frame.closing) = shown.text level := by
  induction h generalizing limit outer level with
  | leaf hmade htype hholds hleaf =>
      obtain rfl := shownAs_iff.mp hmade
      obtain ⟨limit, rfl⟩ := Nat.exists_eq_add_one_of_ne_zero (Nat.ne_zero_of_lt hlimit)
      rw [shownChain, hleaf.shownNode_eq (hmade.lt hsize hholds.lt) hholds htype hdescend]
      exact ⟨[], _, rfl, by simp [Shown.text_leaf]⟩
  | @around id made expr pos wrapper child shown type? hmade htype hholds hwraps _ ih =>
      obtain rfl := shownAs_iff.mp hmade
      obtain ⟨limit, rfl⟩ := Nat.exists_eq_add_one_of_ne_zero (Nat.ne_zero_of_lt hlimit)
      rw [shownChain, hwraps.shownNode_eq (hmade.lt hsize hholds.lt) hholds htype hdescend]
      obtain ⟨frames, leaf, hchain, htext⟩ :=
        ih (Nat.lt_of_succ_lt_succ hlimit) (frame level wrapper type? :: outer) (level + 1)
      refine ⟨frames ++ [frame level wrapper type?], leaf, by simpa using hchain, ?_⟩
      rw [← frame_text, ← htext]
      simp [String.append_assoc]

theorem Shows.exprListing_eq (h : u.Shows id shown) (hdescend : u.TypesDescend)
    (hsize : u.findings.size = u.exprs.size) (hdepth : shown.depth < u.exprs.size) (level : Nat) :
    u.exprListing level id = .ok (shown.text level) := by
  obtain ⟨frames, leaf, hchain, htext⟩ := h.exists_shownChain_eq hdescend hsize hdepth [] level
  rw [exprListing, hchain, ← htext, List.append_nil]
  rfl

theorem ShowsItem.itemListing_eq {item : ItemId} {shown : ShownItem} (h : u.ShowsItem item shown)
    (hitem : item.index < u.items.size) (hdescend : u.TypesDescend)
    (hsize : u.findings.size = u.exprs.size) (hsignature : shown.signature.depth < u.exprs.size)
    (hbody : shown.body.depth < u.exprs.size) : u.itemListing item = .ok shown.text := by
  simp only [itemListing, checkIndex_of_lt hitem, Interner.lookup_eq_ok_iff.mpr h.name,
    h.signature.exprListing_eq hdescend hsize hsignature,
    h.body.exprListing_eq hdescend hsize hbody,
    Bind.bind, Except.bind, indent_eq_margin]
  have hend : ",\n)\n" = ",\n" ++ ")\n" := by decide
  rw [hend, ← String.append_assoc]
  rfl

end CompilationUnit

end FrontEnd
