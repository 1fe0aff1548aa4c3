import FrontEnd.CommandLine.Run
import FrontEnd.Proofs.Binding
import FrontEnd.Proofs.Grammar.Item
import FrontEnd.Proofs.Lexical.Tokens
import Mathlib.Logic.Relation

/-! # Sessions

A session is a unit with the standard preludes and the checkers that were made in it. Its steps
are the operations that a caller has, with names and nodes that were handed out before. -/

namespace FrontEnd

variable {hash : Hasher}

/-- The name in an expression, if there is one. -/
def Expr.name? : Expr → Option Name
  | .name used => some used
  | .intLiteral (.oversized digits _) => some digits
  | _ => none

/-- The name in a token, if there is one. -/
def Token.name? (token : Token) : Option Name :=
  match token.value with
  | .ident name => some name
  | .int (.oversized digits _) => some digits
  | _ => none

namespace CompilationUnit

/-- A name was handed out by a unit. -/
def Knows (u : CompilationUnit hash) (name : Name) : Prop := name.index < u.names.size

instance (u : CompilationUnit hash) (name : Name) : Decidable (u.Knows name) :=
  inferInstanceAs (Decidable (name.index < u.names.size))

/-- All that an expression refers to is there. -/
structure ExprFits (u : CompilationUnit hash) (expr : Expr) : Prop where
  name : ∀ name, expr.name? = some name → u.Knows name
  child : ∀ child, expr.child? = some child → child.index < u.exprs.size

/-- All that a declaration refers to is there. -/
structure DeclFits (u : CompilationUnit hash) (decl : Declaration) : Prop where
  name : u.Knows decl.name
  constant : ∀ value type, decl.meaning = .constant value type →
    value.index < u.exprs.size ∧ type.index < u.types.size
  function : ∀ item, decl.meaning = .function item → item.index < u.items.size

/-- The lexemes of a source are interned in the unit, and its tokens spell them. -/
theorem tokenizeSource_collects {u : CompilationUnit hash} (h : u.names.WellFormed)
    {config : LayoutConfig} {source : SourceId}
    (hroom : (u.tokenizeSource config source).2.names.size < 2 ^ 32) :
    u.names.Collects
        (PlacedLexeme.texts (Reading.ofSource config (u.source source).content.bytes).lexemes)
        (u.tokenizeSource config source).2.names ∧
      ∃ tokens, tokens.map (Token.placed? (u.tokenizeSource config source).2.names) =
          (Reading.ofSource config (u.source source).content.bytes).lexemes.map some ∧
        (u.tokenizeSource config source).1 =
          (Reading.ofSource config (u.source source).content.bytes).outcome.map fun stop =>
            tokens ++ [.endOfFile stop] :=
  tokenize_collects h hroom

/-- Reading a source keeps a unit sound. -/
theorem tokenizeSource_spec {constants : Constants} {u : CompilationUnit hash}
    (h : u.Sound constants) (config : LayoutConfig) {source : SourceId}
    (hroom : u.names.size + (Reading.ofSource config (u.source source).content.bytes).lexemes.length
      < 2 ^ 32) :
    (u.tokenizeSource config source).2.Sound constants ∧
      u.Grown (u.tokenizeSource config source).2 := by
  obtain ⟨hnames, hextends⟩ := tokenize_names_spec h.names config hroom
  have hgrown : u.Grown (u.tokenizeSource config source).2 :=
    ⟨hextends, .refl _, .refl _, .refl _, .refl _, .refl _, fun _ _ h => h, fun _ => .refl _⟩
  exact ⟨h.grow hgrown (fun _ => rfl) hnames h.findings_size h.typesDescend h.exprsDescend
    h.items, hgrown⟩

end CompilationUnit

/-! ## Questions that were answered -/

namespace Checker

open CompilationUnit

variable {constants : Constants} {u v : CompilationUnit hash} {c d : Checker hash} {id : ExprId}

theorem constantForm_queried (h : u.Sound constants) (hfits : c.Fits constants)
    (hid : id.index < u.exprs.size) {answer : Answer hash (Option ExprId)}
    (hok : c.constantForm u id = .ok answer) :
    answer.unit.Sound constants ∧ u.Queried answer.unit := by
  obtain ⟨answer', hanswer, hsound, hasked, -⟩ := constantForm_spec h hfits hid
  obtain rfl : answer' = answer := Except.ok.inj (hanswer.symm.trans hok)
  exact ⟨hsound, hasked.toQueried⟩

theorem denotedType_queried (h : u.Sound constants) (hid : id.index < u.exprs.size)
    {type : Option TypeId} (hok : denotedType u id = .ok (type, v)) :
    v.Sound constants ∧ u.Queried v := by
  obtain ⟨type', v', hanswer, hsound, hasked, -⟩ := denotedType_spec h hid
  obtain ⟨-, rfl⟩ := Prod.mk.inj (Except.ok.inj (hanswer.symm.trans hok))
  exact ⟨hsound, hasked.toQueried⟩

theorem typeOf_queried (h : u.Sound constants) (hfits : c.Fits constants)
    (hout : c.returnType = none) (hid : id.index < u.exprs.size) {answer : Answer hash TypeId}
    (hok : c.typeOf u id = .ok answer) :
    answer.unit.Sound constants ∧ u.Queried answer.unit := by
  obtain ⟨answer', hanswer, hsound, hqueried, -⟩ := typeOf_spec h hfits hid (inside_of_outside hout)
  obtain rfl : answer' = answer := Except.ok.inj (hanswer.symm.trans hok)
  exact ⟨hsound, hqueried⟩

/-- The checker that is left by a check knows the same constants and is outside of functions. -/
theorem check_queried (h : u.Sound constants) (hfits : c.Fits constants)
    (hout : c.returnType = none) {item : ItemId} (hitem : item.index < u.items.size)
    {answer : Answer hash Unit} (hok : c.check u item = .ok (answer, d)) :
    answer.unit.Sound constants ∧ u.Queried answer.unit ∧ d.Fits constants ∧
      d.returnType = none := by
  rcases check_spec h hfits hout (holdsItem_item hitem) with
    ⟨kind, hbreach, -⟩ | ⟨answer', d', hanswer, hsound, hqueried, halike, -⟩
  · cases hbreach.symm.trans hok
  · obtain ⟨rfl, rfl⟩ := Prod.mk.inj (Except.ok.inj (hanswer.symm.trans hok))
    exact ⟨hsound, hqueried, halike.fits hfits, halike.returnType_eq.trans hout⟩

end Checker

structure Session (hash : Hasher) where
  unit : CompilationUnit hash
  preludes : List Prelude
  checkers : List (Checker hash)

namespace Session

def new (hash : Hasher) : Session hash := ⟨.new hash, [], []⟩

/-- What a caller may do next. An operation that breaches what it asks for leaves no session. -/
inductive Step : Session hash → Session hash → Prop where
  | intern (s : Session hash) (text : String) (hroom : s.unit.names.size + 1 < 2 ^ 32) :
      Step s { s with unit := (s.unit.intern text).2 }
  | addSource (s : Session hash) (path : String) (bytes : List UInt8)
      (hroom : s.unit.names.size + 1 < 2 ^ 32) :
      Step s { s with unit := (s.unit.addSource path bytes).2 }
  | tokenizeSource (s : Session hash) (config : LayoutConfig) (source : SourceId)
      (hroom : s.unit.names.size + (s.unit.source source).content.size < 2 ^ 32) :
      Step s { s with unit := (s.unit.tokenizeSource config source).2 }
  | parse (s : Session hash) (tokens : List Token)
      (htokens : ∀ token ∈ tokens, ∀ name ∈ token.name?, s.unit.Knows name) :
      Step s { s with unit := (s.unit.parse tokens).2 }
  | addExpr (s : Session hash) (expr : Expr) (pos : Position) (hexpr : s.unit.ExprFits expr) :
      Step s { s with unit := (s.unit.addExpr expr pos).2 }
  | addFunctionType (s : Session hash) (result : TypeId)
      (hresult : result.index < s.unit.types.size) :
      Step s { s with unit := (s.unit.addFunctionType result).2 }
  | addItem (s : Session hash) (item : FunctionItem) (hname : s.unit.Knows item.name)
      (hsignature : item.signature.index < s.unit.exprs.size)
      (hbody : item.body.index < s.unit.exprs.size) :
      Step s { s with unit := (s.unit.addItem item).2 }
  | addDeclaration (s : Session hash) (decl : Declaration) (hdecl : s.unit.DeclFits decl) :
      Step s { s with unit := (s.unit.addDeclaration decl).2 }
  | recordItemDeclaration (s : Session hash) (item : ItemId) (decl : DeclId)
      (u : CompilationUnit hash) (hitem : item.index < s.unit.items.size)
      (hdecl : decl.index < s.unit.declarations.size)
      (hok : s.unit.recordItemDeclaration item decl = .ok u) : Step s { s with unit := u }
  | recordReferent (s : Session hash) (id : ExprId) (decl : DeclId) (u : CompilationUnit hash)
      (hid : id.index < s.unit.exprs.size) (hdecl : decl.index < s.unit.declarations.size)
      (hok : s.unit.record .referent id decl = .ok u) : Step s { s with unit := u }
  | declareItem (s : Session hash) (item : ItemId) (u : CompilationUnit hash)
      (hitem : item.index < s.unit.items.size) (hok : s.unit.declareItem item = .ok u) :
      Step s { s with unit := u }
  | resolve (s : Session hash) (item : ItemId) (table : Bindings hash)
      (resolution : CompilationUnit.Resolution hash) (hitem : item.index < s.unit.items.size)
      (htable : ∀ name decl, table.lookup name = some decl →
        decl.index < s.unit.declarations.size)
      (hok : s.unit.resolve item table = .ok resolution) :
      Step s { s with unit := resolution.unit }
  | prelude (s : Session hash) (hroom : s.unit.names.size + 1 < 2 ^ 32) :
      Step s ⟨(Prelude.standard s.unit).2, (Prelude.standard s.unit).1 :: s.preludes, s.checkers⟩
  | checker (s : Session hash) (prelude : Prelude) (c : Checker hash)
      (hprelude : prelude ∈ s.preludes ∨ prelude = .empty)
      (hok : Checker.ofPrelude s.unit prelude = .ok c) :
      Step s { s with checkers := c :: s.checkers }
  | constantForm (s : Session hash) (c : Checker hash) (id : ExprId)
      (answer : Answer hash (Option ExprId)) (hc : c ∈ s.checkers)
      (hid : id.index < s.unit.exprs.size) (hok : c.constantForm s.unit id = .ok answer) :
      Step s { s with unit := answer.unit }
  | denotedType (s : Session hash) (id : ExprId) (type : Option TypeId) (u : CompilationUnit hash)
      (hid : id.index < s.unit.exprs.size)
      (hok : Checker.denotedType s.unit id = .ok (type, u)) : Step s { s with unit := u }
  | typeOf (s : Session hash) (c : Checker hash) (id : ExprId) (answer : Answer hash TypeId)
      (hc : c ∈ s.checkers) (hid : id.index < s.unit.exprs.size)
      (hok : c.typeOf s.unit id = .ok answer) : Step s { s with unit := answer.unit }
  | check (s : Session hash) (c d : Checker hash) (item : ItemId) (answer : Answer hash Unit)
      (hc : c ∈ s.checkers) (hitem : item.index < s.unit.items.size)
      (hok : c.check s.unit item = .ok (answer, d)) :
      Step s ⟨answer.unit, s.preludes, d :: s.checkers⟩

def Run : Session hash → Session hash → Prop := Relation.ReflTransGen Step

def Reachable (s : Session hash) : Prop := Run (new hash) s

/-! ## Soundness of sessions -/

structure Sound (s : Session hash) : Prop where
  unit : s.unit.Sound (standardConstants s.unit.names)
  preludes : ∀ prelude ∈ s.preludes, prelude.IsStandard s.unit
  checkers : ∀ c ∈ s.checkers, c.Fits (standardConstants s.unit.names) ∧ c.returnType = none

theorem new_sound : (new hash).Sound where
  unit := CompilationUnit.new_sound.standard fun _ _ h => by cases h
  preludes _ h := by cases h
  checkers _ h := by cases h

variable {s t : Session hash}

/-- Growth of a sound unit keeps the preludes and the checkers. -/
theorem Sound.grow (h : s.Sound) {u : CompilationUnit hash}
    (hsound : u.Sound (standardConstants s.unit.names)) (hgrown : s.unit.Grown u) :
    ({ s with unit := u } : Session hash).Sound where
  unit := hsound.standard hgrown.names.standardConstants
  preludes prelude hprelude := (h.preludes prelude hprelude).grow hgrown
  checkers c hc := by
    obtain ⟨hfits, hout⟩ := h.checkers c hc
    exact ⟨⟨hfits.scopes, fun name binding hname =>
      hgrown.names.standardConstants _ _ (hfits.within name binding hname)⟩, hout⟩

theorem Sound.addChecker (h : s.Sound) {c : Checker hash}
    (hfits : c.Fits (standardConstants s.unit.names)) (hout : c.returnType = none) :
    ({ s with checkers := c :: s.checkers } : Session hash).Sound where
  unit := h.unit
  preludes := h.preludes
  checkers := List.forall_mem_cons.mpr ⟨⟨hfits, hout⟩, h.checkers⟩

theorem Sound.addPrelude (h : s.Sound) {prelude : Prelude} (hprelude : prelude.IsStandard s.unit) :
    ({ s with preludes := prelude :: s.preludes } : Session hash).Sound where
  unit := h.unit
  preludes := List.forall_mem_cons.mpr ⟨hprelude, h.preludes⟩
  checkers := h.checkers

/-! ### Steps and runs -/

/-- A step keeps the unit sound for constants that all checkers of the session fit. -/
theorem Step.unit_spec {constants : Constants} (hstep : Step s t)
    (h : s.unit.Sound constants)
    (hcheckers : ∀ c ∈ s.checkers, c.Fits constants ∧ c.returnType = none) :
    t.unit.Sound constants ∧ s.unit.Grown t.unit := by
  cases hstep with
  | intern text hroom =>
      exact ⟨h.intern text hroom, CompilationUnit.grown_intern h.names text hroom⟩
  | addSource path bytes hroom =>
      exact ⟨h.addSource path bytes hroom, CompilationUnit.grown_addSource h.names path bytes hroom⟩
  | tokenizeSource config source hroom =>
      have hlength := Reading.length_lexemes_le config (s.unit.source source).content.bytes
      exact CompilationUnit.tokenizeSource_spec h config
        (Nat.lt_of_le_of_lt (Nat.add_le_add_left hlength _) hroom)
  | parse tokens htokens =>
      obtain ⟨hsound, hgrown, -, -⟩ := CompilationUnit.parse_spec h tokens
      exact ⟨hsound, hgrown⟩
  | addExpr expr pos hexpr =>
      exact ⟨h.addExpr hexpr.child pos, (CompilationUnit.queried_addExpr s.unit expr pos).toGrown⟩
  | addFunctionType result hresult =>
      exact ⟨h.addFunctionType hresult,
        (CompilationUnit.queried_addFunctionType s.unit result).toGrown⟩
  | addItem item hname hsignature hbody =>
      exact ⟨h.addItem hsignature hbody, CompilationUnit.grown_addItem s.unit item⟩
  | addDeclaration decl hdecl =>
      exact ⟨h.addDeclaration decl, CompilationUnit.grown_addDeclaration s.unit decl⟩
  | recordItemDeclaration item decl u hitem hdecl hok =>
      exact ⟨h.recordItemDeclaration hok, CompilationUnit.grown_recordItemDeclaration hok⟩
  | recordReferent id decl u hid hdecl hok =>
      exact ⟨h.recordReferent hok, (CompilationUnit.recorded_record hok).toGrown⟩
  | declareItem item u hitem hok =>
      obtain ⟨hsound, hgrown, -⟩ := CompilationUnit.declareItem_spec h hok
      exact ⟨hsound, hgrown⟩
  | resolve item table resolution hitem htable hok =>
      obtain ⟨hsound, hgrown, -⟩ :=
        CompilationUnit.resolve_spec h (CompilationUnit.holdsItem_item hitem) hok
      exact ⟨hsound, hgrown⟩
  | prelude hroom =>
      obtain ⟨hsound, hgrown, -⟩ := Prelude.standard_spec h hroom
      exact ⟨hsound, hgrown⟩
  | checker prelude c hprelude hok => exact ⟨h, .refl _⟩
  | constantForm c id answer hc hid hok =>
      obtain ⟨hsound, hqueried⟩ := Checker.constantForm_queried h (hcheckers c hc).1 hid hok
      exact ⟨hsound, hqueried.toGrown⟩
  | denotedType id type u hid hok =>
      obtain ⟨hsound, hqueried⟩ := Checker.denotedType_queried h hid hok
      exact ⟨hsound, hqueried.toGrown⟩
  | typeOf c id answer hc hid hok =>
      obtain ⟨hfits, hout⟩ := hcheckers c hc
      obtain ⟨hsound, hqueried⟩ := Checker.typeOf_queried h hfits hout hid hok
      exact ⟨hsound, hqueried.toGrown⟩
  | check c d item answer hc hitem hok =>
      obtain ⟨hfits, hout⟩ := hcheckers c hc
      obtain ⟨hsound, hqueried, -⟩ := Checker.check_queried h hfits hout hitem hok
      exact ⟨hsound, hqueried.toGrown⟩

/-- A step leaves a sound session, whose unit is grown. -/
theorem Sound.step (h : s.Sound) (hstep : Step s t) : t.Sound ∧ s.unit.Grown t.unit := by
  obtain ⟨hsound, hgrown⟩ := hstep.unit_spec h.unit h.checkers
  refine ⟨?_, hgrown⟩
  cases hstep with
  | prelude hroom =>
      exact (h.grow hsound hgrown).addPrelude (Prelude.standard_isStandard h.unit.names hroom)
  | checker prelude c hprelude hok =>
      rcases hprelude with hprelude | rfl
      · obtain ⟨c', hc', hscopes, hout, hlookup⟩ :=
          Checker.ofPrelude_standard h.unit (h.preludes prelude hprelude)
        rw [hc'] at hok
        cases hok
        exact h.addChecker ⟨hscopes, fun name binding hname => hlookup name ▸ hname⟩ hout
      · obtain ⟨c', hc', hscopes, hout, hlookup⟩ := Checker.ofPrelude_empty s.unit
        rw [hc'] at hok
        cases hok
        refine h.addChecker ⟨hscopes, fun name binding hname => ?_⟩ hout
        rw [hlookup name] at hname
        cases hname
  | check c d item answer hc hitem hok =>
      obtain ⟨hfits, hout⟩ := h.checkers c hc
      obtain ⟨-, hqueried, hleft, hleftOut⟩ := Checker.check_queried h.unit hfits hout hitem hok
      refine (h.grow hsound hgrown).addChecker ?_ hleftOut
      rw [hqueried.names_eq]
      exact hleft
  | _ => exact h.grow hsound hgrown

/-- A run leaves a sound session, whose unit is grown. -/
theorem Sound.run (h : s.Sound) (hrun : Run s t) : t.Sound ∧ s.unit.Grown t.unit := by
  induction hrun with
  | refl => exact ⟨h, .refl _⟩
  | tail _ hstep ih =>
      obtain ⟨hsound, hgrown⟩ := ih.1.step hstep
      exact ⟨hsound, ih.2.trans hgrown⟩

theorem Reachable.step (h : s.Reachable) (hstep : Step s t) : t.Reachable :=
  Relation.ReflTransGen.tail h hstep

theorem Reachable.sound (h : s.Reachable) : s.Sound := (new_sound.run h).1

/-! ## Items are bound and checked -/

/-- To bind an item is a run. -/
theorem Sound.bind_run (h : s.Sound) {prelude : Prelude} (hprelude : prelude ∈ s.preludes)
    {item : ItemId} (hitem : item.index < s.unit.items.size) {answer : Except BindingError Unit}
    {u : CompilationUnit hash} (hok : s.unit.bind item prelude = .ok (answer, u)) :
    Run s { s with unit := u } := by
  obtain ⟨name, binding, constant, hentries, -, hbinding, -⟩ := h.preludes prelude hprelude
  obtain ⟨table, htable, -, hlookup⟩ := Bindings.ofPrelude_eq hash hentries
  unfold CompilationUnit.bind at hok
  cases hdeclare : s.unit.declareItem item with
  | error breach =>
      rw [hdeclare] at hok
      cases hok
  | ok w =>
      have hgrown := (CompilationUnit.declareItem_spec h.unit hdeclare).2.1
      simp only [hdeclare, htable, Bind.bind, Except.bind] at hok
      cases hresolve : w.resolve item table with
      | error breach =>
          rw [hresolve] at hok
          cases hok
      | ok resolution =>
          rw [hresolve] at hok
          cases hok
          have hdeclared : Step s { s with unit := w } := .declareItem s item w hitem hdeclare
          refine (Relation.ReflTransGen.single hdeclared).tail
            (.resolve _ item table resolution ?_ ?_ hresolve)
          · exact Nat.lt_of_lt_of_le hitem hgrown.items.size_le
          · intro other decl hother
            rw [hlookup other] at hother
            split at hother
            · cases hother
              exact (hgrown.holdsDecl hbinding).lt
            · cases hother

/-- To check an item is to ask a new checker for the prelude. -/
theorem Sound.exists_checker (h : s.Sound) {prelude : Prelude} (hprelude : prelude ∈ s.preludes) :
    ∃ c, Checker.ofPrelude s.unit prelude = .ok c ∧ c.Fits (standardConstants s.unit.names) ∧
      c.returnType = none ∧ (∀ name, c.scopes.lookup name = standardConstants s.unit.names name) ∧
      ∀ item, s.unit.check item prelude = (c.check s.unit item).map fun checked => checked.1 := by
  obtain ⟨c, hc, hscopes, hout, hlookup⟩ :=
    Checker.ofPrelude_standard h.unit (h.preludes prelude hprelude)
  exact ⟨c, hc, ⟨hscopes, fun name binding hname => hlookup name ▸ hname⟩, hout, hlookup,
    fun _ => CompilationUnit.check_eq_map hc⟩

/-- The check of an item is a run. -/
theorem Sound.check_run (h : s.Sound) {prelude : Prelude} (hprelude : prelude ∈ s.preludes)
    {item : ItemId} (hitem : item.index < s.unit.items.size) {answer : Answer hash Unit}
    (hok : s.unit.check item prelude = .ok answer) :
    ∃ checkers, Run s ⟨answer.unit, s.preludes, checkers⟩ := by
  obtain ⟨c, hc, -, -, -, hchecker⟩ := h.exists_checker hprelude
  rw [hchecker] at hok
  cases hchecked : c.check s.unit item with
  | error breach =>
      rw [hchecked] at hok
      cases hok
  | ok checked =>
      obtain ⟨answer', d⟩ := checked
      rw [hchecked] at hok
      obtain rfl : answer' = answer := Except.ok.inj hok
      have hopen : Step s { s with checkers := c :: s.checkers } :=
        .checker s prelude c (.inl hprelude) hc
      exact ⟨_, (Relation.ReflTransGen.single hopen).tail
        (.check _ c d item answer' (List.mem_cons_self ..) hitem hchecked)⟩

end Session

namespace CompilationUnit

/-! ## Results -/

theorem toOption_eq_some_iff {ε α : Type} {result : Except ε α} {a : α} :
    result.toOption = some a ↔ result = .ok a := by
  cases result <;> simp [Except.toOption]

/-- The unit that is left where an item passes its check. -/
def passed? (u : CompilationUnit hash) (item : ItemId) (prelude : Prelude) :
    Option (CompilationUnit hash) :=
  match u.check item prelude with
  | .ok ⟨.ok (), v⟩ => some v
  | _ => none

theorem passed?_eq_some_iff {u v : CompilationUnit hash} {item : ItemId} {prelude : Prelude} :
    u.passed? item prelude = some v ↔ u.check item prelude = .ok ⟨.ok (), v⟩ := by
  unfold passed?
  split
  · rename_i hcheck
    simp [hcheck]
  · rename_i hnot
    simp only [reduceCtorEq, false_iff]
    exact hnot v

end CompilationUnit

end FrontEnd
