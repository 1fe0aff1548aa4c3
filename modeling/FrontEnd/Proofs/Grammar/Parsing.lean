import FrontEnd.Proofs.Grammar.Item
import FrontEnd.Proofs.Grammar.Sentences
import FrontEnd.Proofs.Typing.ParsedItems

/-! # Parsing accepts the grammar and builds its derivations

Tokens are parsed exactly if their kinds are a sentence. The expressions of the new item are the
nodes of its derivation and no others, and each of them has one parent. -/

namespace FrontEnd

variable {hash : Hasher}

variable {tokens : List Token} {header : HeaderSyntax} {statement : StatementSyntax}

/-! ## Reading items -/

/-- Tokens are read as an item exactly if they derive it. -/
theorem readItem_eq_ok_iff (h : EndsOnce tokens) :
    readItem tokens = .ok (header, statement) ↔ DerivesItem tokens header statement := by
  obtain ⟨s, rfl, hstart⟩ := TokenStream.exists_ofTokens h
  constructor
  · intro hok
    rw [readItem, hstart] at hok
    change (HeaderSyntax.read s >>= _) = _ at hok
    obtain ⟨⟨header', inner⟩, hheader, hok⟩ := Except.bind_eq_ok_iff.mp hok
    obtain ⟨⟨statement', close⟩, hstatement, hok⟩ := Except.bind_eq_ok_iff.mp hok
    obtain ⟨done, hclose, hok⟩ := Except.bind_eq_ok_iff.mp hok
    cases hok
    obtain ⟨first, hs, hinner, hheader⟩ := HeaderSyntax.read_sound h hheader
    obtain ⟨second, rest, hs', hrest, hderived, rfl⟩ :=
      StatementSyntax.read_sound hinner hstatement
    rw [hs, hs']
    exact .mk hheader hderived ((readClose_skipIf_iff hrest).mp ⟨done, hclose⟩)
  · intro hderives
    generalize htokens : s.tokens = tokens at hderives
    obtain ⟨hheader, hstatement, hend⟩ := hderives
    rename_i first second rest
    have hrest : rest ≠ [] := by
      rintro rfl
      cases hend
    obtain ⟨inner, hinner⟩ := TokenStream.exists_tokens_eq
      (List.append_ne_nil_of_right_ne_nil second hrest)
    obtain ⟨close, rfl⟩ := TokenStream.exists_tokens_eq hrest
    rw [htokens] at h hstart
    have hclose := (h.of_append (List.append_ne_nil_of_right_ne_nil second hrest)).of_append hrest
    obtain ⟨done, hdone⟩ := (readClose_skipIf_iff hclose).mpr hend
    exact readItem_eq_ok hstart
      (HeaderSyntax.read_complete hheader (htokens.trans (by rw [hinner])))
      (StatementSyntax.read_complete hstatement hinner) hdone

/-- Tokens have at most one derivation. -/
theorem DerivesItem.unique {header' : HeaderSyntax} {statement' : StatementSyntax}
    (hends : EndsOnce tokens) (h : DerivesItem tokens header statement)
    (h' : DerivesItem tokens header' statement') : header = header' ∧ statement = statement' := by
  have hread := (readItem_eq_ok_iff hends).mpr h
  rw [(readItem_eq_ok_iff hends).mpr h'] at hread
  cases hread
  exact ⟨rfl, rfl⟩

/-- Where the identifiers and literals carry what they stand for, reading decides the grammar. -/
theorem exists_readItem_eq_ok_iff (hends : EndsOnce tokens)
    (hcarries : ∀ token ∈ tokens, token.Carries) :
    (∃ parts, readItem tokens = .ok parts) ↔ IsItem (tokens.map Token.kind) := by
  constructor
  · rintro ⟨⟨header, statement⟩, hread⟩
    exact ((readItem_eq_ok_iff hends).mp hread).isItem
  · intro hitem
    obtain ⟨header, statement, hderives⟩ := hitem.derives hcarries
    exact ⟨_, (readItem_eq_ok_iff hends).mpr hderives⟩

namespace CompilationUnit

variable {u v : CompilationUnit hash}

/-! ## Parents -/

/-- What may have an expression inside. -/
inductive Parent where
  | signature (item : ItemId)
  | body (item : ItemId)
  | expr (id : ExprId)

def RefersTo (u : CompilationUnit hash) : Parent → ExprId → Prop
  | .signature item, id => ∃ function, u.HoldsItem item function ∧ function.signature = id
  | .body item, id => ∃ function, u.HoldsItem item function ∧ function.body = id
  | .expr outer, id => u.child? outer = some id

/-- All expressions that nodes refer to are there, each with a place for what is found about it. -/
structure Complete (u : CompilationUnit hash) : Prop where
  findings_size : u.findings.size = u.exprs.size
  exprsDescend : LeadsDown u.child?
  items : u.ItemsHold

theorem Sound.complete {constants : Constants} (h : u.Sound constants) : u.Complete :=
  ⟨h.findings_size, h.exprsDescend, h.items⟩

/-- An item is added, with expressions about which nothing is known. All else stays. -/
structure AddsItem (u v : CompilationUnit hash) (function : FunctionItem) : Prop extends
    Grown u v where
  items_eq : v.items = u.items.push function
  itemDeclarations_eq : v.itemDeclarations = u.itemDeclarations.push none
  names_eq : v.names = u.names
  sources_eq : v.sources = u.sources
  types_eq : v.types = u.types
  declarations_eq : v.declarations = u.declarations
  findingsOf_eq : ∀ id, v.findingsOf id = u.findingsOf id

/-- The expressions that are added with an item are its parts, and each has one parent. -/
structure AddsTree (u v : CompilationUnit hash) (function : FunctionItem) : Prop extends
    AddsItem u v function where
  complete : v.Complete
  part_iff : ∀ id, v.PartOf function id ↔ u.exprs.size ≤ id.index ∧ id.index < v.exprs.size
  unknown : ∀ id, v.PartOf function id → v.findings[id.index]? = some {}
  parent : ∀ id, v.PartOf function id → ∃! parent, v.RefersTo parent id

/-- The chains of a signature and of a body, one after the other, make up an item. -/
structure TwoChains (u v : CompilationUnit hash) (function : FunctionItem) : Prop extends
    AddsItem u v function where
  signature : Links v.child? u.exprs.size function.signature.index
  body : Links v.child? (function.signature.index + 1) function.body.index
  size_eq : v.exprs.size = function.body.index + 1
  findings_size : v.findings.size + u.exprs.size = u.findings.size + v.exprs.size

namespace TwoChains

variable {function : FunctionItem}

theorem leadsDown (h : u.TwoChains v function) (hu : u.Complete) : LeadsDown v.child? := by
  intro outer inner hinner
  obtain ⟨expr, pos, hholds, -⟩ := exists_holds_of_child? hinner
  have hlt := hholds.lt
  rw [h.size_eq] at hlt
  by_cases hold : outer.index < u.exprs.size
  · rw [h.toGrown.child?_eq hold] at hinner
    exact hu.exprsDescend outer inner hinner
  · by_cases hsignature : outer.index ≤ function.signature.index
    · have hindex := (h.signature.inner?_eq_some_iff (by omega) hsignature).mp hinner
      omega
    · have hindex := (h.body.inner?_eq_some_iff (by omega) (by omega)).mp hinner
      omega

/-- Only the expression made after another has it inside, unless that is a part of the item. -/
theorem child?_eq_some_iff (h : u.TwoChains v function) (hu : u.Complete) {outer id : ExprId}
    (hid : u.exprs.size ≤ id.index) : v.child? outer = some id ↔
      outer.index = id.index + 1 ∧ id.index ≠ function.signature.index ∧
        id.index < function.body.index := by
  have hsignature := h.signature.le
  have hbody := h.body.le
  by_cases hold : outer.index < u.exprs.size
  · refine iff_of_false (fun hinner => ?_) (by omega)
    rw [h.toGrown.child?_eq hold] at hinner
    have hdown := hu.exprsDescend outer id hinner
    omega
  · by_cases hfirst : outer.index ≤ function.signature.index
    · rw [h.signature.inner?_eq_some_iff (by omega) hfirst]
      omega
    · by_cases hsecond : outer.index ≤ function.body.index
      · rw [h.body.inner?_eq_some_iff (by omega) hsecond]
        omega
      · refine iff_of_false (fun hinner => ?_) (by omega)
        obtain ⟨expr, pos, hholds, -⟩ := exists_holds_of_child? hinner
        have hlt := hholds.lt
        rw [h.size_eq] at hlt
        omega

/-- An expression that is added is a part of the added item only, as the items from before have
their parts from before. -/
theorem part_eq_iff (h : u.TwoChains v function) {part : FunctionItem → ExprId}
    (hold : ∀ item held, u.HoldsItem item held → (part held).index < u.exprs.size) {id : ExprId}
    (hid : u.exprs.size ≤ id.index) {item : ItemId} :
    (∃ held, v.HoldsItem item held ∧ part held = id) ↔
      item = ⟨u.items.size⟩ ∧ id = part function := by
  constructor
  · rintro ⟨held, hitem, rfl⟩
    obtain hitem | ⟨rfl, rfl⟩ := hitem.old_or_new h.items_eq
    · exact absurd (hold item held hitem) (Nat.not_lt.mpr hid)
    · exact ⟨rfl, rfl⟩
  · rintro ⟨rfl, rfl⟩
    exact ⟨function, holdsItem_of_items_eq_push h.items_eq, rfl⟩

theorem refersTo_expr_iff (h : u.TwoChains v function) (hu : u.Complete) {id : ExprId}
    (hfirst : u.exprs.size ≤ id.index) (hlast : id.index ≤ function.body.index) (outer : ExprId) :
    v.RefersTo (.expr outer) id ↔
      outer = ⟨id.index + 1⟩ ∧ id ≠ function.signature ∧ id ≠ function.body := by
  have hindex : ∀ id other : ExprId, id = other ↔ id.index = other.index := fun id other =>
    ⟨congrArg ExprId.index, fun heq => congrArg ExprId.mk heq⟩
  rw [RefersTo, h.child?_eq_some_iff hu hfirst]
  simp only [ne_eq, hindex]
  omega

theorem refersTo_iff (h : u.TwoChains v function) (hu : u.Complete) {id : ExprId}
    (hfirst : u.exprs.size ≤ id.index) (hlast : id.index ≤ function.body.index)
    (parent : Parent) : v.RefersTo parent id ↔ parent =
      if id = function.signature then .signature ⟨u.items.size⟩
      else if id = function.body then .body ⟨u.items.size⟩
      else .expr ⟨id.index + 1⟩ := by
  have hapart : function.body ≠ function.signature := fun heq => by
    have hle := h.body.le
    rw [heq] at hle
    omega
  cases parent with
  | signature item =>
      rw [RefersTo, h.part_eq_iff (fun item held hold => (hu.items item held hold).1) hfirst]
      by_cases hsignature : id = function.signature
      · simp [hsignature]
      · by_cases hbody : id = function.body <;> simp [hsignature, hbody, hapart]
  | body item =>
      rw [RefersTo, h.part_eq_iff (fun item held hold => (hu.items item held hold).2) hfirst]
      by_cases hbody : id = function.body
      · simp [hbody, hapart]
      · by_cases hsignature : id = function.signature <;> simp [hsignature, hbody, hapart.symm]
  | expr outer =>
      rw [h.refersTo_expr_iff hu hfirst hlast]
      by_cases hsignature : id = function.signature
      · simp [hsignature]
      · by_cases hbody : id = function.body <;> simp [hsignature, hbody, hapart]

theorem partOf_iff (h : u.TwoChains v function) {id : ExprId} :
    v.PartOf function id ↔ u.exprs.size ≤ id.index ∧ id.index < v.exprs.size := by
  have hsignature := h.signature.exists_trail_iff id
  have hbody := h.body.exists_trail_iff id
  have hle := h.signature.le
  have hle' := h.body.le
  rw [h.size_eq]
  constructor
  · rintro ⟨top, outer, rfl | rfl, htrail⟩
    · have := hsignature.mp ⟨outer, htrail⟩
      omega
    · have := hbody.mp ⟨outer, htrail⟩
      omega
  · intro hid
    by_cases hfirst : id.index ≤ function.signature.index
    · obtain ⟨outer, htrail⟩ := hsignature.mpr ⟨hid.1, hfirst⟩
      exact ⟨_, outer, .inl rfl, htrail⟩
    · obtain ⟨outer, htrail⟩ := hbody.mpr (by omega)
      exact ⟨_, outer, .inr rfl, htrail⟩

theorem complete (h : u.TwoChains v function) (hu : u.Complete) : v.Complete where
  findings_size := by
    have hfindings := h.findings_size
    have hbefore := hu.findings_size
    omega
  exprsDescend := h.leadsDown hu
  items := by
    have hsize := h.size_eq
    have hbody := h.body.le
    intro item held hitem
    obtain hitem | ⟨-, rfl⟩ := hitem.old_or_new h.items_eq
    · obtain ⟨hsignature, hbody⟩ := hu.items item held hitem
      exact ⟨Nat.lt_of_lt_of_le hsignature h.exprs.size_le,
        Nat.lt_of_lt_of_le hbody h.exprs.size_le⟩
    · omega

theorem addsTree (h : u.TwoChains v function) (hu : u.Complete) : u.AddsTree v function where
  toAddsItem := h.toAddsItem
  complete := h.complete hu
  part_iff _ := h.partOf_iff
  unknown id hpart := by
    obtain ⟨hfirst, hlast⟩ := h.partOf_iff.mp hpart
    have hplace : id.index < v.findings.size := (h.complete hu).findings_size ▸ hlast
    have hfound : v.findingsOf id = v.findings[id.index] := by
      rw [findingsOf, Array.getD_eq_getD_getElem?, Array.getElem?_eq_getElem hplace]
      rfl
    rw [Array.getElem?_eq_getElem hplace, ← hfound, h.findingsOf_eq,
      findingsOf_eq_of_ge (hu.findings_size ▸ hfirst)]
  parent id hpart := by
    obtain ⟨hfirst, hlast⟩ := h.partOf_iff.mp hpart
    have hsize := h.size_eq
    have hiff := h.refersTo_iff hu hfirst (by omega)
    exact ⟨_, (hiff _).mpr rfl, fun parent hparent => (hiff parent).mp hparent⟩

end TwoChains

/-! ## Parsing -/

variable (u) in
theorem parse_of_readItem_eq_error {e : SyntaxError} (hread : readItem tokens = .error e) :
    (u.parse tokens).1 = .error e := by
  unfold readItem at hread
  unfold parse parseStream
  cases hstart : TokenStream.ofTokens tokens with
  | error e' => simpa [hstart, Bind.bind, Except.bind] using hread
  | ok start =>
      cases hheader : HeaderSyntax.read start with
      | error e' => simpa [hstart, hheader, Bind.bind, Except.bind] using hread
      | ok readHeader =>
          cases hstatement : StatementSyntax.read readHeader.2 with
          | error e' => simpa [hstart, hheader, hstatement, Bind.bind, Except.bind] using hread
          | ok readStatement =>
              cases hclose : readClose readStatement.2 with
              | error e' =>
                  simpa [hstart, hheader, hstatement, hclose, Bind.bind, Except.bind] using hread
              | ok done =>
                  simp [hstart, hheader, hstatement, hclose, Bind.bind, Except.bind, pure,
                    Except.pure] at hread

variable (u) in
/-- What is read as an item is added to the unit, its signature before its body. -/
theorem parse_of_readItem_eq_ok (hread : readItem tokens = .ok (header, statement)) :
    u.parse tokens =
      let built := (u.addSignature header).2.addStatement statement
      let item := built.2.addItem
        ⟨header.name, (u.addSignature header).1, built.1, header.pos⟩
      (.ok item.1, item.2) := by
  unfold readItem at hread
  unfold parse parseStream
  cases hstart : TokenStream.ofTokens tokens with
  | error e' => simp [hstart, Bind.bind, Except.bind] at hread
  | ok start =>
      cases hheader : HeaderSyntax.read start with
      | error e' => simp [hstart, hheader, Bind.bind, Except.bind] at hread
      | ok readHeader =>
          cases hstatement : StatementSyntax.read readHeader.2 with
          | error e' => simp [hstart, hheader, hstatement, Bind.bind, Except.bind] at hread
          | ok readStatement =>
              cases hclose : readClose readStatement.2 with
              | error e' =>
                  simp [hstart, hheader, hstatement, hclose, Bind.bind, Except.bind] at hread
              | ok done =>
                  simp [hstart, hheader, hstatement, hclose, Bind.bind, Except.bind, pure,
                    Except.pure] at hread
                  obtain ⟨rfl, rfl⟩ := hread
                  simp [hheader, hstatement, hclose]

variable (u) in
/-- The signature and the body of what is read are two chains of new expressions. -/
theorem parse_twoChains (hread : readItem tokens = .ok (header, statement)) :
    ∃ function, (u.parse tokens).1 = .ok ⟨u.items.size⟩ ∧
      u.TwoChains (u.parse tokens).2 function ∧
      (u.parse tokens).2.SpellsItem function header statement := by
  rw [parse_of_readItem_eq_ok u hread]
  obtain ⟨hfirst, hsignature⟩ := addSignature_spec u header
  generalize u.addSignature header = one at hfirst hsignature ⊢
  obtain ⟨signature, u₁⟩ := one
  obtain ⟨hsecond, value, hbody, hvalue⟩ := addStatement_spec u₁ statement
  dsimp only at hfirst hsignature hsecond hbody hvalue ⊢
  generalize u₁.addStatement statement = two at hsecond hbody hvalue ⊢
  obtain ⟨body, u₂⟩ := two
  dsimp only at hsecond hbody hvalue ⊢
  have hbuilt := hfirst.toQueried.trans hsecond.toQueried
  have hadded := grown_addItem u₂ ⟨header.name, signature, body, header.pos⟩
  have hsize := hfirst.size_eq
  refine ⟨⟨header.name, signature, body, header.pos⟩, ?_,
    ⟨⟨hbuilt.toGrown.trans hadded, ?_, ?_, hbuilt.names_eq, hbuilt.sources_eq, ?_,
      hbuilt.declarations_eq, ?_⟩, ?_, ?_, hsecond.size_eq, ?_⟩,
    ⟨rfl, rfl, hadded.spells (hsecond.toGrown.spells hsignature), value, hadded.holds hbody,
      hadded.spellsValue hvalue⟩⟩
  · exact congrArg (fun items => Except.ok (ItemId.mk items.size)) hbuilt.items_eq
  · change u₂.items.push _ = _
    rw [hbuilt.items_eq]
  · change u₂.itemDeclarations.push none = _
    rw [hbuilt.itemDeclarations_eq]
  · exact hsecond.types_eq.trans hfirst.types_eq
  · exact fun id => (hsecond.findingsOf_eq id).trans (hfirst.findingsOf_eq id)
  · exact hfirst.links.congr fun id hid => hsecond.toGrown.child?_eq (by omega)
  · exact hsize ▸ hsecond.links
  · have hfindings := hfirst.findings_size
    have hfindings' := hsecond.findings_size
    change u₂.findings.size + _ = _ + u₂.exprs.size
    omega

/-- Tokens are parsed exactly if their kinds are a sentence, and then as what they derive: the new
item spells it with expressions of its own, about which nothing is known and each of which has one
parent. -/
theorem parse_iff_isItem (hu : u.Complete) (hends : EndsOnce tokens)
    (hcarries : ∀ token ∈ tokens, token.Carries) :
    ((∃ item, (u.parse tokens).1 = .ok item) ↔ IsItem (tokens.map Token.kind)) ∧
      ∀ item, (u.parse tokens).1 = .ok item →
        ∃ header statement function, DerivesItem tokens header statement ∧
          item = ⟨u.items.size⟩ ∧ u.AddsTree (u.parse tokens).2 function ∧
          (u.parse tokens).2.SpellsItem function header statement := by
  rw [← exists_readItem_eq_ok_iff hends hcarries]
  cases hread : readItem tokens with
  | error e =>
      have hparse := parse_of_readItem_eq_error u hread
      simp [hparse]
  | ok parts =>
      obtain ⟨header, statement⟩ := parts
      obtain ⟨function, hparse, hchains, hspells⟩ := parse_twoChains u hread
      refine ⟨by simp [hparse], fun item hok => ?_⟩
      rw [hparse] at hok
      cases hok
      exact ⟨header, statement, function, (readItem_eq_ok_iff hends).mp hread, rfl,
        hchains.addsTree hu, hspells⟩

theorem literalFunction_carries : ∀ token ∈ literalFunction ⟨1⟩ 1, token.Carries := by
  have hvalues : ∀ token ∈ literalFunction ⟨1⟩ 1,
      (token.kind = .identifier → token.value = .ident ⟨0⟩ ∨ token.value = .ident ⟨1⟩) ∧
        (token.kind = .intLiteral → token.value = .int (.small 1)) := by
    decide
  intro token htoken
  obtain ⟨hident, hint⟩ := hvalues token htoken
  exact ⟨fun hkind => (hident hkind).elim (⟨_, ·⟩) (⟨_, ·⟩), fun hkind => ⟨_, hint hkind⟩⟩

/-- A literal in a function that is declared to return a function is parsed, although it has
another type, into a unit that has expressions already. -/
theorem parse_literalFunction_iff_isItem : ∃ header statement function,
    (twoNames.parse (literalFunction ⟨1⟩ 1)).1 = .ok ⟨0⟩ ∧
      DerivesItem (literalFunction ⟨1⟩ 1) header statement ∧
      twoNames.AddsTree (twoNames.parse (literalFunction ⟨1⟩ 1)).2 function := by
  have hends : EndsOnce (literalFunction ⟨1⟩ 1) := by
    repeat first
      | exact .last rfl
      | refine .cons (by decide) ?_
  obtain ⟨haccepts, hbuilds⟩ :=
    parse_iff_isItem twoNames_reachable.sound.unit.complete hends literalFunction_carries
  obtain ⟨item, hparse⟩ := haccepts.mpr (IsItem.mk (.function .name) .literal .plain)
  obtain ⟨header, statement, function, hderives, hitem, htree, -⟩ := hbuilds item hparse
  have hplace : twoNames.items.size = 0 := by decide +kernel
  rw [hitem, hplace] at hparse
  exact ⟨header, statement, function, hparse, hderives, htree⟩

end CompilationUnit

end FrontEnd
