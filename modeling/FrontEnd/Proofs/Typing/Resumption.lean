import FrontEnd.Proofs.Typing.Preludes

/-! # Checkers between questions

A check opens a scope, and sets a return type, while it asks about a body. However that ends, the
checker is afterwards as it was before: questions see nothing of the tables of closed scopes. -/

namespace FrontEnd

namespace Checker

variable {hash : Hasher} {u : CompilationUnit hash} {c d e first : Checker hash}

/-! ## What questions see of a checker -/

/-- The same names are bound, inside of functions of the same return type. -/
structure SeenAlike (c d : Checker hash) : Prop where
  lookup_eq : ∀ name, d.scopes.lookup name = c.scopes.lookup name
  returnType_eq : d.returnType = c.returnType

namespace SeenAlike

theorem leafConstantForm (h : c.SeenAlike d) (id : ExprId) (node : ExprNode) :
    d.leafConstantForm id node = c.leafConstantForm id node := by
  simp only [Checker.leafConstantForm, lookup, h.lookup_eq]

theorem constantForm (h : c.SeenAlike d) (u : CompilationUnit hash) (id : ExprId) :
    d.constantForm u id = c.constantForm u id := by
  simp only [Checker.constantForm, h.leafConstantForm]

theorem typeOfValue (h : c.SeenAlike d) (u : CompilationUnit hash) (id : ExprId) :
    d.typeOfValue u id = c.typeOfValue u id := by
  simp only [Checker.typeOfValue, leafType, lookup, h.lookup_eq]

theorem typeOf (h : c.SeenAlike d) (u : CompilationUnit hash) (id : ExprId) :
    d.typeOf u id = c.typeOf u id := by
  simp only [Checker.typeOf, h.typeOfValue, h.returnType_eq]

theorem denotedReturnType (h : c.SeenAlike d) (u : CompilationUnit hash) (signature : ExprId) :
    d.denotedReturnType u signature = c.denotedReturnType u signature := by
  simp only [Checker.denotedReturnType, denotationError, h.typeOf]

theorem returnTypeOf (h : c.SeenAlike d) (u : CompilationUnit hash) (signature : ExprId) :
    d.returnTypeOf u signature = c.returnTypeOf u signature := by
  simp only [Checker.returnTypeOf, h.constantForm, h.typeOf, h.denotedReturnType]

end SeenAlike

/-! ## Checkers between questions -/

/-- A checker has the open scopes and the return type of another one, and its closed scopes hold
nothing. -/
structure Resumes (first c : Checker hash) : Prop where
  scopes_eq : c.scopes.scopes = first.scopes.scopes
  cleared : c.scopes.Cleared
  returnType_eq : c.returnType = first.returnType

namespace Resumes

theorem refl (h : c.scopes.Cleared) : c.Resumes c := ⟨rfl, h, rfl⟩

theorem trans (hcd : c.Resumes d) (hde : d.Resumes e) : c.Resumes e where
  scopes_eq := hde.scopes_eq.trans hcd.scopes_eq
  cleared := hde.cleared
  returnType_eq := hde.returnType_eq.trans hcd.returnType_eq

theorem seenAlike (h : first.Resumes c) : first.SeenAlike c where
  lookup_eq := Scopes.lookup_eq_of_scopes_eq h.scopes_eq
  returnType_eq := h.returnType_eq

/-- The table of a scope that was closed is opened again like a new one. -/
theorem inside (h : first.Resumes c) (hfirst : first.scopes.Cleared) (expected : TypeId) :
    SeenAlike ⟨first.scopes.push, some expected⟩ ⟨c.scopes.push, some expected⟩ where
  lookup_eq name := by
    rw [h.cleared.lookup_push, hfirst.lookup_push, h.seenAlike.lookup_eq]
  returnType_eq := rfl

end Resumes

/-- Whatever the answer about a body is, the scope for it is closed and the return type put back. -/
theorem checkBody_eq (h : c.scopes.Cleared) (u : CompilationUnit hash) (expected : TypeId)
    (body : ExprId) : ∃ d, c.Resumes d ∧ c.checkBody u expected body =
      (Checker.typeOf ⟨c.scopes.push, some expected⟩ u body).map fun answer =>
        (⟨answer.value.map fun _ => (), answer.unit⟩, d) := by
  obtain ⟨after, hpop, hcleared, hscopes⟩ := h.pop_push
  refine ⟨⟨after, c.returnType⟩, ⟨hscopes, hcleared, rfl⟩, ?_⟩
  cases htyped : Checker.typeOf ⟨c.scopes.push, some expected⟩ u body with
  | error breach =>
      simp only [checkBody, htyped, Bind.bind, Except.bind]
      rfl
  | ok answer =>
      simp only [checkBody, htyped, hpop, Bind.bind, Except.bind]
      rfl

/-- A check leaves the checker as it was, also where it ends in an error. -/
theorem check_resumes (h : c.scopes.Cleared) {item : ItemId} {answer : Answer hash Unit}
    (hok : c.check u item = .ok (answer, d)) : c.Resumes d := by
  unfold check at hok
  obtain ⟨-, hok⟩ := checkIndex_bind_eq_ok_iff.mp hok
  obtain ⟨returned, -, hok⟩ := Except.bind_eq_ok_iff.mp hok
  split at hok
  · cases hok
    exact .refl h
  · obtain ⟨typed, scopes, -, hpop, rfl, rfl⟩ := checkBody_eq_ok_iff.mp hok
    obtain ⟨after, hpop', hcleared, hscopes⟩ := h.pop_push
    obtain rfl := Except.ok.inj (hpop'.symm.trans hpop)
    exact ⟨hscopes, hcleared, rfl⟩

/-- The checker that a check leaves checks as the one before does. -/
theorem Resumes.check (h : first.Resumes c) (hfirst : first.scopes.Cleared)
    (u : CompilationUnit hash) (item : ItemId) :
    (c.check u item).map Prod.fst = (first.check u item).map Prod.fst := by
  simp only [Checker.check, h.seenAlike.returnTypeOf]
  cases checkIndex item.index u.items.size with
  | error breach => rfl
  | ok _ =>
  cases first.returnTypeOf u (u.item item).signature with
  | error breach => rfl
  | ok returned =>
      simp only [Bind.bind, Except.bind]
      cases returned.value with
      | error e => rfl
      | ok expected =>
          obtain ⟨d, -, hbody⟩ := checkBody_eq h.cleared returned.unit expected (u.item item).body
          obtain ⟨d', -, hbody'⟩ := checkBody_eq hfirst returned.unit expected (u.item item).body
          simp only [hbody, hbody', (h.inside hfirst expected).typeOf]
          cases Checker.typeOf ⟨first.scopes.push, some expected⟩ returned.unit
            (u.item item).body <;> rfl

/-! ## Checkers that are made -/

/-- A constant of a prelude is declared where it is there. -/
theorem declareAll_eq_ok {scopes after : Scopes hash.name ConstantBinding}
    {entries : List PreludeName} (hok : declareAll u scopes entries = .ok after) :
    (∀ entry ∈ entries, entry.constant.index < u.declarations.size) ∧
      after.depth = scopes.depth ∧ after.spare = scopes.spare := by
  induction entries generalizing scopes with
  | nil =>
      cases hok
      exact ⟨nofun, rfl, rfl⟩
  | cons entry rest ih =>
      obtain ⟨hentry, hok⟩ := checkIndex_bind_eq_ok_iff.mp hok
      split at hok
      · obtain ⟨inside, hinside, hok⟩ := Except.bind_eq_ok_iff.mp hok
        obtain ⟨hrest, hdepth, hspare⟩ := ih hok
        refine ⟨List.forall_mem_cons.mpr ⟨hentry, hrest⟩, ?_⟩
        obtain ⟨_ | ⟨table, outer⟩, spare⟩ := scopes
        · cases hinside
        · cases hinside
          exact ⟨hdepth, hspare⟩
      · obtain ⟨hrest, hkept⟩ := ih hok
        exact ⟨List.forall_mem_cons.mpr ⟨hentry, hrest⟩, hkept⟩

theorem exists_declareAll {scopes : Scopes hash.name ConstantBinding} (hopen : 0 < scopes.depth)
    {entries : List PreludeName}
    (hentries : ∀ entry ∈ entries, entry.constant.index < u.declarations.size) :
    ∃ after, declareAll u scopes entries = .ok after := by
  induction entries generalizing scopes with
  | nil => exact ⟨scopes, rfl⟩
  | cons entry rest ih =>
      obtain ⟨hentry, hrest⟩ := List.forall_mem_cons.mp hentries
      rw [declareAll, checkIndex_bind_of_lt hentry]
      split
      · obtain ⟨_ | ⟨table, outer⟩, spare⟩ := scopes
        · cases hopen
        · exact ih (Nat.succ_pos _) hrest
      · exact ih hopen hrest

/-- A checker is made for the preludes whose constants are there, and for no others. -/
theorem exists_ofPrelude_iff {prelude : Prelude} : (∃ c, ofPrelude u prelude = .ok c) ↔
    ∀ entry ∈ prelude.entries, entry.constant.index < u.declarations.size := by
  constructor
  · rintro ⟨c, hc⟩
    obtain ⟨scopes, hscopes, -⟩ := Except.map_eq_ok_iff.mp hc
    exact (declareAll_eq_ok hscopes).1
  · intro hentries
    have hopen : 0 < (Scopes.empty.push : Scopes hash.name ConstantBinding).depth := Nat.one_pos
    obtain ⟨scopes, hscopes⟩ := exists_declareAll hopen hentries
    exact ⟨⟨scopes, none⟩, Except.map_eq_ok_iff.mpr ⟨scopes, hscopes, rfl⟩⟩

/-- A checker is made outside of functions and with one scope. -/
theorem ofPrelude_opens {prelude : Prelude} (hc : ofPrelude u prelude = .ok c) :
    c.scopes.depth = 1 ∧ c.scopes.Cleared ∧ c.returnType = none := by
  obtain ⟨scopes, hscopes, rfl⟩ := Except.map_eq_ok_iff.mp hc
  obtain ⟨-, hdepth, hspare⟩ := declareAll_eq_ok hscopes
  refine ⟨hdepth, fun table htable => ?_, rfl⟩
  rw [hspare] at htable
  cases htable

end Checker

end FrontEnd
