import FrontEnd.Grammar.Item
import FrontEnd.Proofs.Typing.Sound

/-! # The nodes of a parsed item

Parsing only adds nodes, and those of an item spell what its tokens are read as. -/

namespace FrontEnd

/-- What tokens are read as, if they are an item. -/
def readItem (tokens : List Token) : Except SyntaxError (HeaderSyntax × StatementSyntax) := do
  let start ← TokenStream.ofTokens tokens
  let (header, inner) ← HeaderSyntax.read start
  let (statement, close) ← StatementSyntax.read inner
  let _ ← readClose close
  return (header, statement)

theorem readItem_eq_ok {tokens : List Token} {start inner close done : TokenStream}
    {header : HeaderSyntax} {statement : StatementSyntax}
    (hstart : TokenStream.ofTokens tokens = .ok start)
    (hheader : HeaderSyntax.read start = .ok (header, inner))
    (hstatement : StatementSyntax.read inner = .ok (statement, close))
    (hclose : readClose close = .ok done) : readItem tokens = .ok (header, statement) := by
  simp only [readItem, hstart, hheader, hstatement, hclose, Bind.bind, Except.bind]
  rfl

namespace CompilationUnit

variable {hash : Hasher} {constants : Constants} {u v w : CompilationUnit hash}

/-! ## Nodes that spell a syntax -/

/-- Function type expressions, with their positions from the outermost on, around a name. -/
inductive Spells (u : CompilationUnit hash) : ExprId → List Position → Name → Position → Prop where
  | name {id name pos} : u.Holds id (.name name) pos → Spells u id [] name pos
  | function {id result pos opens base basePos} : u.Holds id (.functionType result) pos →
      Spells u result opens base basePos → Spells u id (pos :: opens) base basePos

/-- A syntax has the position of its outermost function type first. -/
def SpellsType (u : CompilationUnit hash) (id : ExprId) (type : TypeSyntax) : Prop :=
  u.Spells id type.opens.reverse type.base type.basePos

inductive SpellsValue (u : CompilationUnit hash) : ExprId → ValueSyntax → Prop where
  | literal {id value pos} : u.Holds id (.intLiteral value) pos →
      SpellsValue u id (.literal value pos)
  | type {id type} : u.SpellsType id type → SpellsValue u id (.type type)

/-- A function is what a header and a statement spell. -/
structure SpellsItem (u : CompilationUnit hash) (function : FunctionItem) (header : HeaderSyntax)
    (statement : StatementSyntax) : Prop where
  name : function.name = header.name
  pos : function.pos = header.pos
  signature : u.Spells function.signature (header.params :: header.result.opens.reverse)
    header.result.base header.result.basePos
  body : ∃ value, u.Holds function.body (.return_ value) statement.pos ∧
    u.SpellsValue value statement.value

variable {id : ExprId} {opens : List Position} {base : Name} {basePos : Position}

theorem Spells.lt (h : u.Spells id opens base basePos) : id.index < u.exprs.size := by
  cases h with
  | name hid => exact hid.lt
  | function hid _ => exact hid.lt

theorem Grown.spells (hgrown : u.Grown v) (h : u.Spells id opens base basePos) :
    v.Spells id opens base basePos := by
  induction h with
  | name hid => exact .name (hgrown.holds hid)
  | function hid _ ih => exact .function (hgrown.holds hid) ih

theorem SpellsValue.lt {value : ValueSyntax} (h : u.SpellsValue id value) :
    id.index < u.exprs.size := by
  cases h with
  | literal hid => exact hid.lt
  | type htype => exact Spells.lt htype

theorem Grown.spellsValue (hgrown : u.Grown v) {value : ValueSyntax}
    (h : u.SpellsValue id value) : v.SpellsValue id value := by
  cases h with
  | literal hid => exact .literal (hgrown.holds hid)
  | type htype => exact .type (hgrown.spells htype)

theorem Grown.spellsItem (hgrown : u.Grown v) {function : FunctionItem} {header : HeaderSyntax}
    {statement : StatementSyntax} (h : u.SpellsItem function header statement) :
    v.SpellsItem function header statement where
  name := h.name
  pos := h.pos
  signature := hgrown.spells h.signature
  body := by
    obtain ⟨value, hbody, hvalue⟩ := h.body
    exact ⟨value, hgrown.holds hbody, hgrown.spellsValue hvalue⟩

/-! ## Building -/

theorem child?_addExpr (u : CompilationUnit hash) (expr : Expr) (pos : Position) :
    (u.addExpr expr pos).2.child? (u.addExpr expr pos).1 = expr.child? :=
  child?_of_holds (holds_addExpr u expr pos)

/-- Expressions are added one after another, each around the one before, up to the last. Nothing is
known about them. -/
structure Chained (u v : CompilationUnit hash) (top : ExprId) : Prop extends Queried u v where
  findingsOf_eq : ∀ id, v.findingsOf id = u.findingsOf id
  types_eq : v.types = u.types
  findings_size : v.findings.size + u.exprs.size = u.findings.size + v.exprs.size
  size_eq : v.exprs.size = top.index + 1
  links : Links v.child? u.exprs.size top.index

theorem chained_addExpr (u : CompilationUnit hash) (expr : Expr) (hleaf : expr.child? = none)
    (pos : Position) : u.Chained (u.addExpr expr pos).2 (u.addExpr expr pos).1 where
  toQueried := queried_addExpr u expr pos
  findingsOf_eq := findingsOf_addExpr expr pos
  types_eq := rfl
  findings_size := by
    simp only [addExpr, Array.size_push]
    omega
  size_eq := by simp [addExpr]
  links := ⟨Nat.le_refl _, (child?_addExpr u expr pos).trans hleaf,
    fun _ hle hlt => absurd hlt (Nat.not_lt_of_le hle)⟩

/-- An expression around the last one goes on with the chain. -/
theorem Chained.addExpr {top : ExprId} (h : u.Chained v top) {expr : Expr}
    (hchild : expr.child? = some top) (pos : Position) :
    u.Chained (v.addExpr expr pos).2 (v.addExpr expr pos).1 := by
  have hadded := queried_addExpr v expr pos
  have hsize := h.size_eq
  have hnext : (v.addExpr expr pos).1 = ⟨top.index + 1⟩ := by rw [← hsize, CompilationUnit.addExpr]
  have hlast := child?_addExpr v expr pos
  rw [hnext] at hlast ⊢
  refine ⟨h.toQueried.trans hadded, fun id => ?_, h.types_eq, ?_, ?_, ?_⟩
  · rw [findingsOf_addExpr, h.findingsOf_eq]
  · have hfindings := h.findings_size
    simp only [CompilationUnit.addExpr, Array.size_push]
    omega
  · simp only [CompilationUnit.addExpr, Array.size_push]
    omega
  · have hkept : Links (v.addExpr expr pos).2.child? u.exprs.size top.index :=
      h.links.congr fun id hid => hadded.child?_eq (by omega)
    exact hkept.extend (hlast.trans hchild)

/-- What is inside of the added expressions was made before. -/
theorem Chained.leadsDown {top : ExprId} (h : u.Chained v top) (hdown : LeadsDown u.child?) :
    LeadsDown v.child? := by
  intro id inner hinner
  obtain ⟨expr, pos, hholds, -⟩ := exists_holds_of_child? hinner
  have hlt := hholds.lt
  rw [h.size_eq] at hlt
  by_cases hold : id.index < u.exprs.size
  · rw [h.toGrown.child?_eq hold] at hinner
    exact hdown id inner hinner
  · have hindex := (h.links.inner?_eq_some_iff (by omega) (by omega)).mp hinner
    omega

/-- A chain keeps a unit sound. -/
theorem Chained.sound {top : ExprId} (h : u.Chained v top) (hsound : u.Sound constants) :
    v.Sound constants := by
  refine hsound.grow h.toGrown h.findingsOf_eq (h.names_eq ▸ hsound.names) ?_ ?_
    (h.leadsDown hsound.exprsDescend) (hsound.items.grow h.toGrown h.items_eq)
  · have hfindings := h.findings_size
    have hbefore := hsound.findings_size
    omega
  · intro id result hid
    rw [HoldsType, h.types_eq] at hid
    exact hsound.typesDescend id result hid

theorem Chained.wrapInFunctionTypes (h : u.Chained v id) (hid : v.Spells id opens base basePos)
    (positions : List Position) :
    u.Chained (v.wrapInFunctionTypes id positions).2 (v.wrapInFunctionTypes id positions).1 ∧
      (v.wrapInFunctionTypes id positions).2.Spells (v.wrapInFunctionTypes id positions).1
        (positions.reverse ++ opens) base basePos := by
  induction positions generalizing v id opens with
  | nil => exact ⟨h, hid⟩
  | cons pos rest ih =>
      have hadded := queried_addExpr v (.functionType id) pos
      obtain ⟨hchained, hspells⟩ := ih (h.addExpr rfl pos)
        (.function (holds_addExpr v _ pos) (hadded.toGrown.spells hid))
      refine ⟨hchained, ?_⟩
      rwa [List.reverse_cons, List.append_assoc]

theorem addTypeSyntax_spec (u : CompilationUnit hash) (type : TypeSyntax) :
    u.Chained (u.addTypeSyntax type).2 (u.addTypeSyntax type).1 ∧
      (u.addTypeSyntax type).2.SpellsType (u.addTypeSyntax type).1 type := by
  have hbase := chained_addExpr u (.name type.base) rfl type.basePos
  obtain ⟨hchained, hspells⟩ :=
    hbase.wrapInFunctionTypes (.name (holds_addExpr u _ _)) type.opens
  rw [List.append_nil] at hspells
  exact ⟨hchained, hspells⟩

theorem addValueSyntax_spec (u : CompilationUnit hash) (value : ValueSyntax) :
    u.Chained (u.addValueSyntax value).2 (u.addValueSyntax value).1 ∧
      (u.addValueSyntax value).2.SpellsValue (u.addValueSyntax value).1 value := by
  cases value with
  | literal value pos =>
      exact ⟨chained_addExpr u _ rfl pos, .literal (holds_addExpr u _ pos)⟩
  | type type =>
      obtain ⟨hchained, hspells⟩ := addTypeSyntax_spec u type
      exact ⟨hchained, .type hspells⟩

theorem addSignature_spec (u : CompilationUnit hash) (header : HeaderSyntax) :
    u.Chained (u.addSignature header).2 (u.addSignature header).1 ∧
      (u.addSignature header).2.Spells (u.addSignature header).1
        (header.params :: header.result.opens.reverse) header.result.base
        header.result.basePos := by
  obtain ⟨hchained, hspells⟩ := addTypeSyntax_spec u header.result
  have hadded := queried_addExpr (u.addTypeSyntax header.result).2
    (.functionType (u.addTypeSyntax header.result).1) header.params
  exact ⟨hchained.addExpr rfl header.params,
    .function (holds_addExpr _ _ _) (hadded.toGrown.spells hspells)⟩

theorem addStatement_spec (u : CompilationUnit hash) (statement : StatementSyntax) :
    u.Chained (u.addStatement statement).2 (u.addStatement statement).1 ∧
      ∃ value, (u.addStatement statement).2.Holds (u.addStatement statement).1
          (.return_ value) statement.pos ∧
        (u.addStatement statement).2.SpellsValue value statement.value := by
  obtain ⟨hchained, hspells⟩ := addValueSyntax_spec u statement.value
  have hadded := queried_addExpr (u.addValueSyntax statement.value).2
    (.return_ (u.addValueSyntax statement.value).1) statement.pos
  exact ⟨hchained.addExpr rfl statement.pos, _, holds_addExpr _ _ _,
    hadded.toGrown.spellsValue hspells⟩

/-! ## Parsing -/

/-- Parsing keeps a unit sound and adds at most one item, which is what its tokens are read as and
has a return of its own. -/
theorem parseStream_spec (h : u.Sound constants) (start : TokenStream) :
    (u.parseStream start).2.Sound constants ∧ u.Grown (u.parseStream start).2 ∧
      (∀ e, (u.parseStream start).1 = .error e → (u.parseStream start).2.items = u.items) ∧
      ∀ item, (u.parseStream start).1 = .ok item →
        ∃ header inner statement close done function,
          HeaderSyntax.read start = .ok (header, inner) ∧
          StatementSyntax.read inner = .ok (statement, close) ∧ readClose close = .ok done ∧
          item = ⟨u.items.size⟩ ∧ (u.parseStream start).2.items = u.items.push function ∧
          u.exprs.size ≤ function.body.index ∧
          (u.parseStream start).2.SpellsItem function header statement := by
  unfold parseStream
  cases hheader : HeaderSyntax.read start with
  | error e => exact ⟨h, .refl u, fun _ _ => rfl, by rintro item ⟨⟩⟩
  | ok readHeader =>
      obtain ⟨header, inner⟩ := readHeader
      obtain ⟨hchained₁, hsignature⟩ := addSignature_spec u header
      dsimp only
      generalize u.addSignature header = one at hchained₁ hsignature ⊢
      obtain ⟨signature, u₁⟩ := one
      have hsound₁ := hchained₁.sound h
      cases hstatement : StatementSyntax.read inner with
      | error e =>
          exact ⟨hsound₁, hchained₁.toGrown, fun _ _ => hchained₁.items_eq, by rintro item ⟨⟩⟩
      | ok readStatement =>
          obtain ⟨statement, close⟩ := readStatement
          obtain ⟨hchained₂, value, hbody, hvalue⟩ := addStatement_spec u₁ statement
          dsimp only
          generalize u₁.addStatement statement = two at hchained₂ hbody hvalue ⊢
          obtain ⟨body, u₂⟩ := two
          have hsound₂ := hchained₂.sound hsound₁
          have hbuilt := hchained₁.toQueried.trans hchained₂.toQueried
          cases hclose : readClose close with
          | error e =>
              exact ⟨hsound₂, hbuilt.toGrown, fun _ _ => hbuilt.items_eq, by rintro item ⟨⟩⟩
          | ok done =>
              have hadded := grown_addItem u₂ ⟨header.name, signature, body, header.pos⟩
              have hsignature₂ := hchained₂.toGrown.spells hsignature
              refine ⟨hsound₂.addItem hsignature₂.lt hbody.lt, hbuilt.toGrown.trans hadded,
                by rintro e ⟨⟩, ?_⟩
              rintro item ⟨⟩
              have hitems : u₂.items = u.items := hbuilt.items_eq
              refine ⟨header, inner, statement, close, done,
                ⟨header.name, signature, body, header.pos⟩, rfl, hstatement, hclose, ?_, ?_,
                Nat.le_trans hchained₁.exprs.size_le hchained₂.links.le,
                ⟨rfl, rfl, hadded.spells hsignature₂, value, hadded.holds hbody,
                  hadded.spellsValue hvalue⟩⟩
              · exact congrArg (fun items => ItemId.mk items.size) hitems
              · change u₂.items.push _ = _
                rw [hitems]

theorem parse_spec (h : u.Sound constants) (tokens : List Token) :
    (u.parse tokens).2.Sound constants ∧ u.Grown (u.parse tokens).2 ∧
      (∀ e, (u.parse tokens).1 = .error e → (u.parse tokens).2.items = u.items) ∧
      ∀ item, (u.parse tokens).1 = .ok item → ∃ header statement function,
        readItem tokens = .ok (header, statement) ∧ item = ⟨u.items.size⟩ ∧
        (u.parse tokens).2.items = u.items.push function ∧
        u.exprs.size ≤ function.body.index ∧
        (u.parse tokens).2.SpellsItem function header statement := by
  unfold parse
  cases hstart : TokenStream.ofTokens tokens with
  | error e => exact ⟨h, .refl u, fun _ _ => rfl, by rintro item ⟨⟩⟩
  | ok start =>
      obtain ⟨hsound, hgrown, herror, hitem⟩ := parseStream_spec h start
      refine ⟨hsound, hgrown, herror, fun item hok => ?_⟩
      obtain ⟨header, inner, statement, close, done, function, hheader, hstatement, hclose,
        hplace, hitems, hnew, hspells⟩ := hitem item hok
      exact ⟨header, statement, function, readItem_eq_ok hstart hheader hstatement hclose,
        hplace, hitems, hnew, hspells⟩

/-- The item that is parsed is there. -/
theorem holdsItem_of_items_eq_push {function : FunctionItem}
    (hitems : v.items = u.items.push function) : v.HoldsItem ⟨u.items.size⟩ function := by
  rw [HoldsItem, hitems]
  exact Array.getElem?_push_size

/-- Every item that is there was there before, or is the new one. -/
theorem HoldsItem.old_or_new {function : FunctionItem} (hitems : v.items = u.items.push function)
    {other : ItemId} {held : FunctionItem} (h : v.HoldsItem other held) :
    u.HoldsItem other held ∨ other = ⟨u.items.size⟩ ∧ held = function := by
  obtain ⟨index⟩ := other
  rw [HoldsItem, hitems, Array.getElem?_push] at h
  split at h
  · rename_i hplace
    exact .inr ⟨congrArg ItemId.mk hplace, (Option.some.inj h).symm⟩
  · exact .inl h

/-! ## Units whose items are all parsed -/

/-- All items are spelled, and no two have the same return. -/
structure ItemsApart (u : CompilationUnit hash) : Prop where
  spelled : ∀ item function, u.HoldsItem item function →
    ∃ header statement, u.SpellsItem function header statement
  apart : ∀ a b f g, u.HoldsItem a f → u.HoldsItem b g → f.body = g.body → a = b

theorem ItemsApart.grow (h : u.ItemsApart) (hgrown : u.Grown v) (hitems : v.items = u.items) :
    v.ItemsApart := by
  have hsame : ∀ {item function}, v.HoldsItem item function → u.HoldsItem item function := by
    intro item function hitem
    rwa [HoldsItem, hitems] at hitem
  constructor
  · intro item function hitem
    obtain ⟨header, statement, hspells⟩ := h.spelled item function (hsame hitem)
    exact ⟨header, statement, hgrown.spellsItem hspells⟩
  · exact fun a b f g ha hb => h.apart a b f g (hsame ha) (hsame hb)

theorem ItemsApart.parse (hsound : u.Sound constants) (h : u.ItemsApart) (tokens : List Token) :
    (u.parse tokens).2.ItemsApart := by
  obtain ⟨-, hgrown, herror, hok⟩ := parse_spec hsound tokens
  cases hanswer : (u.parse tokens).1 with
  | error e => exact h.grow hgrown (herror e hanswer)
  | ok item =>
      obtain ⟨header, statement, made, -, -, hitems, hnew, hspells⟩ := hok item hanswer
      have hold : ∀ {other function}, u.HoldsItem other function →
          function.body ≠ made.body := by
        intro other function hother heq
        have hlt := (hsound.items other function hother).2
        rw [heq] at hlt
        omega
      constructor
      · intro other function hother
        rcases hother.old_or_new hitems with hother | ⟨-, rfl⟩
        · obtain ⟨header', statement', hspells'⟩ := h.spelled other function hother
          exact ⟨header', statement', hgrown.spellsItem hspells'⟩
        · exact ⟨header, statement, hspells⟩
      · intro a b f g ha hb hbody
        rcases ha.old_or_new hitems with ha | ⟨hplace, hf⟩ <;>
          rcases hb.old_or_new hitems with hb | ⟨hplace', hg⟩
        · exact h.apart a b f g ha hb hbody
        · exact absurd (hg ▸ hbody) (hold ha)
        · exact absurd (hf ▸ hbody.symm) (hold hb)
        · exact hplace.trans hplace'.symm

end CompilationUnit

end FrontEnd
