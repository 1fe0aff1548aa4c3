import FrontEnd.Proofs.CompilationUnit.Shown

/-! # Shown trees are read back

The text of a tree shows where it ends and has all of the tree. Indentation is not needed for this:
beyond the thirty-second level the labels and the closing parentheses alone tell the nodes apart. -/

namespace FrontEnd

namespace BaseType

theorem isAlphanum_name (kind : BaseType) : kind.name.toList.all Char.isAlphanum = true := by
  cases kind <;> decide

theorem name_injective {a b : BaseType} (h : a.name.toList = b.name.toList) : a = b := by
  cases a <;> cases b <;> first | rfl | exact absurd h (by decide)

end BaseType

namespace Listing

variable {after after' : List Char}

/-! ## Types -/

/-- A function type does not start like a base type. -/
theorem name_append_ne (base : BaseType) {rest : List Char} :
    base.name.toList ++ ("()".toList ++ after) ≠ "FunctionType(return_type = ".toList ++ rest := by
  intro h
  have hsplit : "FunctionType(return_type = ".toList =
      "FunctionType".toList ++ "(return_type = ".toList := rfl
  rw [hsplit, List.append_assoc] at h
  obtain ⟨hname, -⟩ := append_inj_of_head? base.isAlphanum_name (by decide) rfl rfl h
  cases base <;> exact absurd hname (by decide)

theorem typeText_append_inj {depth depth' : Nat} {base base' : BaseType}
    (h : (typeText depth base).toList ++ after = (typeText depth' base').toList ++ after') :
    depth = depth' ∧ base = base' ∧ after = after' := by
  induction depth generalizing depth' after after' with
  | zero =>
      cases depth' with
      | zero =>
          simp only [typeText_zero, String.toList_append, List.append_assoc] at h
          obtain ⟨hname, hrest⟩ := append_inj_of_head? base.isAlphanum_name base'.isAlphanum_name
            rfl rfl h
          exact ⟨rfl, BaseType.name_injective hname, List.append_cancel_left hrest⟩
      | succ depth' =>
          simp only [typeText_zero, typeText_succ, String.toList_append, List.append_assoc] at h
          exact absurd h (name_append_ne base)
  | succ depth ih =>
      cases depth' with
      | zero =>
          simp only [typeText_zero, typeText_succ, String.toList_append, List.append_assoc] at h
          exact absurd h.symm (name_append_ne base')
      | succ depth' =>
          simp only [typeText_succ, String.toList_append, List.append_assoc] at h
          obtain ⟨rfl, hbase, hrest⟩ := ih (List.append_cancel_left h)
          exact ⟨rfl, hbase, List.append_cancel_left hrest⟩

theorem ShownType.text_selfDelimiting : SelfDelimiting ShownType.text := by
  intro type type' after after' h
  obtain ⟨depth, base⟩ := type
  obtain ⟨depth', base'⟩ := type'
  obtain ⟨rfl, rfl, hafter⟩ := typeText_append_inj h
  exact ⟨rfl, hafter⟩

/-! ## Ends of leaves -/

/-- The end of a leaf: its type after a mark, if it shows one. -/
def leafEnd (mark : String) : Option ShownType → String
  | some type => mark ++ type.text ++ ")"
  | none => ")"

theorem leafEnd_selfDelimiting {mark : String} {first : Char} {rest : List Char}
    (hmark : mark.toList = first :: rest) (hfirst : first ≠ ')') :
    SelfDelimiting (leafEnd mark) := by
  intro type? type?' after after' h
  cases type? with
  | none =>
      cases type?' with
      | none => exact ⟨rfl, List.append_cancel_left h⟩
      | some type' =>
          simp only [leafEnd, String.toList_append, List.append_assoc, hmark] at h
          exact absurd (List.cons.inj h).1.symm hfirst
  | some type =>
      cases type?' with
      | none =>
          simp only [leafEnd, String.toList_append, List.append_assoc, hmark] at h
          exact absurd (List.cons.inj h).1 hfirst
      | some type' =>
          simp only [leafEnd, String.toList_append, List.append_assoc] at h
          obtain ⟨rfl, hend⟩ := ShownType.text_selfDelimiting (List.append_cancel_left h)
          exact ⟨rfl, List.append_cancel_left hend⟩

/-- After a scalar the type is marked by a comma, which is no digit. -/
theorem leafEnd_head (type? : Option ShownType) (after : List Char) :
    ((leafEnd ", type = " type?).toList ++ after).head?.all (!Char.isDigit ·) = true := by
  cases type? with
  | none => rfl
  | some type =>
      rw [leafEnd, String.toList_append, String.toList_append]
      rfl

theorem Leaf.text_of_scalar {leaf : Leaf} {scalar : String} (h : leaf.scalar? = some scalar)
    (type? : Option ShownType) :
    leaf.text type? = leaf.label ++ "(" ++ scalar ++ leafEnd ", type = " type? := by
  rw [Leaf.text, h]
  cases type? with
  | none => rfl
  | some type =>
      have hfields : ", ".intercalate [scalar, "type = " ++ type.text] =
          scalar ++ (", " ++ ("type = " ++ type.text)) := String.append_assoc
      have hfield : ", type = " = ", " ++ "type = " := by decide
      change leaf.label ++ "(" ++ ", ".intercalate [scalar, "type = " ++ type.text] ++ ")" = _
      simp only [hfields, leafEnd, hfield, String.append_assoc]

theorem Leaf.text_literal (value? : Option Nat) (type? : Option ShownType) :
    (literal value?).text type? = (literal value?).label ++ "(" ++
      ("value = " ++ Text.number value?) ++ leafEnd ", type = " type? := text_of_scalar rfl type?

theorem Leaf.text_name (text : String) (type? : Option ShownType) :
    (name text).text type? = (name text).label ++ "(" ++
      ("name = " ++ Text.quote text) ++ leafEnd ", type = " type? := text_of_scalar rfl type?

theorem Leaf.text_baseType (kind : BaseType) (type? : Option ShownType) :
    (baseType kind).text type? = (baseType kind).label ++ "(" ++ leafEnd "type = " type? := by
  cases type? with
  | none =>
      change (baseType kind).label ++ "(" ++ "" ++ ")" = _
      rw [String.append_empty]
      rfl
  | some type =>
      rw [leafEnd, ← String.append_assoc]
      rfl

/-! ## Labels -/

theorem Leaf.isAlphanum_label (leaf : Leaf) : leaf.label.toList.all Char.isAlphanum = true := by
  cases leaf with
  | literal value? =>
      rw [label]
      decide
  | name text =>
      rw [label]
      decide
  | baseType kind =>
      rw [label, String.toList_append, List.all_append, kind.isAlphanum_name]
      decide

theorem Wrapper.isAlphanum_label (wrapper : Wrapper) :
    wrapper.label.toList.all Char.isAlphanum = true := by
  cases wrapper <;> decide

theorem Wrapper.label_injective {a b : Wrapper} (h : a.label = b.label) : a = b := by
  cases a <;> cases b <;> first | rfl | exact absurd h (by decide)

theorem Leaf.label_ne (leaf : Leaf) (wrapper : Wrapper) : leaf.label ≠ wrapper.label := by
  cases leaf with
  | literal value? => cases wrapper <;> simp [label, Wrapper.label]
  | name text => cases wrapper <;> simp [label, Wrapper.label]
  | baseType kind => cases wrapper <;> cases kind <;> simp [label, Wrapper.label, BaseType.name]

def Shown.label : Shown → String
  | .leaf shown _ => shown.label
  | .around wrapper _ _ => wrapper.label

theorem Shown.exists_text_eq (level : Nat) (shown : Shown) :
    ∃ rest, (shown.text level).toList = shown.label.toList ++ '(' :: rest := by
  cases shown with
  | leaf leaf type? =>
      rw [text_leaf, Leaf.text]
      simp only [String.toList_append, List.append_assoc]
      exact ⟨_, rfl⟩
  | around wrapper child type? =>
      rw [text_around]
      simp only [String.toList_append, List.append_assoc]
      exact ⟨_, rfl⟩

theorem Shown.isAlphanum_label (shown : Shown) :
    shown.label.toList.all Char.isAlphanum = true := by
  cases shown with
  | leaf leaf _ => exact leaf.isAlphanum_label
  | around wrapper _ _ => exact wrapper.isAlphanum_label

/-- Texts that are read alike have one label. -/
theorem Shown.label_eq {level : Nat} {shown shown' : Shown}
    (h : (shown.text level).toList ++ after = (shown'.text level).toList ++ after') :
    shown.label = shown'.label := by
  obtain ⟨rest, hrest⟩ := shown.exists_text_eq level
  obtain ⟨rest', hrest'⟩ := shown'.exists_text_eq level
  rw [hrest, hrest', List.append_assoc, List.append_assoc] at h
  obtain ⟨hlabel, -⟩ :=
    append_inj_of_head? shown.isAlphanum_label shown'.isAlphanum_label rfl rfl h
  exact String.toList_inj.mp hlabel

/-! ## Leaves -/

theorem Leaf.text_append_inj {leaf leaf' : Leaf} {type? type?' : Option ShownType}
    (hlabel : leaf.label = leaf'.label)
    (h : (leaf.text type?).toList ++ after = (leaf'.text type?').toList ++ after') :
    leaf = leaf' ∧ type? = type?' ∧ after = after' := by
  cases leaf with
  | literal value? =>
      cases leaf' with
      | literal value?' =>
          simp only [text_literal, hlabel, String.toList_append, List.append_assoc,
            List.append_cancel_left_eq] at h
          obtain ⟨rfl, hend⟩ := Text.number_append_inj (leafEnd_head _ _) (leafEnd_head _ _) h
          obtain ⟨rfl, hafter⟩ := leafEnd_selfDelimiting rfl (by decide) hend
          exact ⟨rfl, rfl, hafter⟩
      | name text => simp [label] at hlabel
      | baseType kind => cases kind <;> simp [label, BaseType.name] at hlabel
  | name text =>
      cases leaf' with
      | literal value? => simp [label] at hlabel
      | name text' =>
          simp only [text_name, hlabel, String.toList_append, List.append_assoc,
            List.append_cancel_left_eq] at h
          obtain ⟨rfl, hend⟩ := Text.quote_selfDelimiting h
          obtain ⟨rfl, hafter⟩ := leafEnd_selfDelimiting rfl (by decide) hend
          exact ⟨rfl, rfl, hafter⟩
      | baseType kind => cases kind <;> simp [label, BaseType.name] at hlabel
  | baseType kind =>
      cases leaf' with
      | literal value? => cases kind <;> simp [label, BaseType.name] at hlabel
      | name text => cases kind <;> simp [label, BaseType.name] at hlabel
      | baseType kind' =>
          rw [text_baseType, text_baseType, hlabel] at h
          simp only [String.toList_append, List.append_assoc, List.append_cancel_left_eq] at h
          obtain ⟨rfl, hafter⟩ := leafEnd_selfDelimiting rfl (by decide) h
          simp only [label, ← String.toList_inj, String.toList_append] at hlabel
          rw [BaseType.name_injective (List.append_cancel_right hlabel)]
          exact ⟨rfl, rfl, hafter⟩

/-! ## Nodes -/

theorem margin_blank (level : Nat) : (margin level).toList.all (· == ' ') = true := by
  rw [← indent_eq_margin, indent, String.toList_ofList, List.all_eq_true]
  intro c hc
  rw [(List.mem_replicate.mp hc).2]
  rfl

/-- The end of a node after its child: its type on a line of its own, and the parenthesis. -/
def nodeEnd (level : Nat) : Option ShownType → String
  | some type => margin (level + 1) ++ "type = " ++ type.text ++ ",\n" ++ margin level ++ ")"
  | none => margin level ++ ")"

/-- Even where the type is indented no deeper than the parenthesis, it does not start like that. -/
theorem margin_append_ne (level level' : Nat) :
    (margin level).toList ++ ("type = ".toList ++ after) ≠
      (margin level').toList ++ (")".toList ++ after') := by
  intro h
  obtain ⟨-, hrest⟩ := append_inj_of_head? (margin_blank level) (margin_blank level') rfl rfl h
  cases (List.cons.inj hrest).1

theorem nodeEnd_selfDelimiting (level : Nat) : SelfDelimiting (nodeEnd level) := by
  intro type? type?' after after' h
  cases type? with
  | none =>
      cases type?' with
      | none => exact ⟨rfl, List.append_cancel_left h⟩
      | some type' =>
          simp only [nodeEnd, String.toList_append, List.append_assoc] at h
          exact absurd h.symm (margin_append_ne _ _)
  | some type =>
      cases type?' with
      | none =>
          simp only [nodeEnd, String.toList_append, List.append_assoc] at h
          exact absurd h (margin_append_ne _ _)
      | some type' =>
          simp only [nodeEnd, String.toList_append, List.append_assoc,
            List.append_cancel_left_eq] at h
          obtain ⟨rfl, hend⟩ := ShownType.text_selfDelimiting h
          exact ⟨rfl, by simpa using hend⟩

theorem Shown.text_around_eq (level : Nat) (wrapper : Wrapper) (child : Shown)
    (type? : Option ShownType) : (Shown.around wrapper child type?).text level =
      wrapper.label ++ "(\n" ++ margin (level + 1) ++ wrapper.field ++ " = " ++
        child.text (level + 1) ++ ",\n" ++ nodeEnd level type? := by
  rw [text_around]
  cases type? <;> simp [nodeEnd, String.append_assoc]

/-- The text of a tree ends where the tree does, and tells all of it. -/
theorem Shown.text_selfDelimiting (level : Nat) : SelfDelimiting (Shown.text level) := by
  intro shown shown' after after' h
  have hlabel := label_eq h
  induction shown generalizing level shown' after after' with
  | leaf leaf type? =>
      cases shown' with
      | leaf leaf' type?' =>
          obtain ⟨rfl, rfl, hafter⟩ := Leaf.text_append_inj hlabel h
          exact ⟨rfl, hafter⟩
      | around wrapper child type?' => exact absurd hlabel (leaf.label_ne wrapper)
  | around wrapper child type? ih =>
      cases shown' with
      | leaf leaf type?' => exact absurd hlabel.symm (leaf.label_ne wrapper)
      | around wrapper' child' type?' =>
          obtain rfl := Wrapper.label_injective hlabel
          simp only [text_around_eq, String.toList_append, List.append_assoc,
            List.append_cancel_left_eq] at h
          obtain ⟨rfl, hend⟩ := ih (level + 1) h (label_eq h)
          obtain ⟨rfl, hafter⟩ := nodeEnd_selfDelimiting level (List.append_cancel_left hend)
          exact ⟨rfl, hafter⟩

/-- Items with one text show one name, one signature and one body. -/
theorem ShownItem.text_injective {item item' : ShownItem} (h : item.text = item'.text) :
    item = item' := by
  obtain ⟨name, signature, body⟩ := item
  obtain ⟨name', signature', body'⟩ := item'
  have hchars := congrArg String.toList h
  simp only [text_eq, String.toList_append, List.append_assoc,
    List.append_cancel_left_eq] at hchars
  obtain ⟨rfl, hrest⟩ := Text.quote_selfDelimiting hchars
  simp only [List.append_cancel_left_eq] at hrest
  obtain ⟨rfl, hend⟩ := Shown.text_selfDelimiting 1 hrest
  simp only [List.append_cancel_left_eq] at hend
  obtain ⟨rfl, -⟩ := Shown.text_selfDelimiting 1 hend
  rfl

end Listing

end FrontEnd
